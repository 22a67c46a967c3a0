import Seanet.Artifact
import Seanet.Proofs.Json.Reading

set_option autoImplicit false

namespace Seanet

namespace Artifact

def kindOf (library : Bool) : OutputKind := if library then .library else .executable

def methodDocument (library : Bool) : Json :=
  if library then
    .object [("name", .string "Add"), ("returns", .string "int"),
      ("parameters", .list [.string "int", .string "int"]),
      ("instructions",
        .list [.string "ldarg.0", .string "ldarg.1", .string "add", .string "ret"])]
  else
    .object [("name", .string "Main"), ("returns", .string "int"), ("parameters", .list []),
      ("instructions", .list [.string "ldc.i4.0", .string "ret"])]

def document (name : Text) (library : Bool) : Json :=
  .object [("format", .string "seanet-artifact"), ("version", .number 1), ("name", .string name),
    ("kind", .string (if library then "library" else "executable")),
    ("type", .string (name ++ "." ++ name)), ("methods", .list [methodDocument library])]

def methodLines (library : Bool) : List Text :=
  if library then
    ["      \"name\": \"Add\",", "      \"returns\": \"int\",", "      \"parameters\": [",
      "        \"int\",", "        \"int\"", "      ],", "      \"instructions\": [",
      "        \"ldarg.0\",", "        \"ldarg.1\",", "        \"add\",", "        \"ret\"",
      "      ]"]
  else
    ["      \"name\": \"Main\",", "      \"returns\": \"int\",", "      \"parameters\": [],",
      "      \"instructions\": [", "        \"ldc.i4.0\",", "        \"ret\"", "      ]"]

def lines (name : Text) (library : Bool) : List Text :=
  let kind : Text := if library then "library" else "executable"
  let opening : List Text := ["\x7b", "  \"format\": \"seanet-artifact\",", "  \"version\": 1,",
    "  \"name\": " ++ Json.quote name ++ ",", "  \"kind\": \"" ++ kind ++ "\",",
    "  \"type\": " ++ Json.quote (name ++ "." ++ name) ++ ",", "  \"methods\": [", "    \x7b"]
  let closing : List Text := ["    \x7d", "  ]", "\x7d", ""]
  opening ++ methodLines library ++ closing

/-- The content of a file is an artifact: these lines in UTF-8, which are read as this document and
a line feed. -/
structure HeldBy (name : Text) (library : Bool) (content : List UInt8) : Prop where
  written : content = Utf8.encode (Text.join [Text.lineFeed] (lines name library))
  read : ∃ text, Utf8.decode content = text ++ [Text.lineFeed] ∧
    Json.read? text = some (document name library)

theorem json_eq_document (name : Text) (library : Bool) :
    json ⟨name, kindOf library⟩ = document name library := by
  cases library <;> rfl

set_option maxRecDepth 4000 in
theorem fileText_eq_lines (name : Text) (library : Bool) :
    fileText ⟨name, kindOf library⟩ = Text.join [Text.lineFeed] (lines name library) := by
  rw [fileText, json_eq_document]
  cases library
  all_goals
    simp only [document, methodDocument, lines, methodLines, Json.pretty, Json.indented,
      Json.indentedMembers, Json.indentedItems, Json.framed_cons, Json.join_cons_cons,
      Json.join_singleton, List.append_assoc, List.cons_append, List.nil_append,
      Bool.false_eq_true, if_true, if_false]
    -- the same units, cut at other places
    rfl

theorem wellFormed_fileText (a : Artifact) : a.fileText.WellFormed = true :=
  Text.append_wellFormed (Json.wellFormed_pretty _) rfl

theorem heldBy_encode (name : Text) (library : Bool) :
    HeldBy name library (Utf8.encode (fileText ⟨name, kindOf library⟩)) where
  written := by rw [fileText_eq_lines]
  read := by
    refine ⟨(document name library).pretty, ?_, Json.read?_pretty _⟩
    rw [Utf8.decode_encode (wellFormed_fileText _), fileText, json_eq_document]

end Artifact

end Seanet
