import Seanet.Proofs.Instances.Memory
import Seanet.Proofs.Lexical.Lossless

set_option autoImplicit false

namespace Seanet

namespace Instances

namespace Memory

def place (m : Memory) : Place := ⟨m.scanner.current, m.scanner.line, m.scanner.column⟩

def unread (m : Memory) : Text := m.scanner.source.text.drop m.scanner.current

def readUnit (m : Memory) : Memory :=
  let s := m.scanner
  if s.source.text[s.current]? = some Text.lineFeed then
    { m with scanner := { s with current := s.current + 1, line := s.line + 1, column := 1 } }
  else { m with scanner := { s with current := s.current + 1, column := s.column + 1 } }

def readUnits : Nat → Memory → Memory
  | 0, m => m
  | n + 1, m => readUnits n m.readUnit

def beginToken (m : Memory) : Memory :=
  let s := m.scanner
  { m with scanner :=
      { s with tokenStart := s.current, tokenLine := s.line, tokenColumn := s.column } }

def lexeme (m : Memory) : Text :=
  m.scanner.source.text.slice m.scanner.tokenStart (m.scanner.current - m.scanner.tokenStart)

def addToken (kind : Kind) (value : Option Value) (m : Memory) : Memory :=
  let s := m.scanner
  m.write s.tokens (m.array s.tokens ++
    [⟨kind, s.tokenStart, s.current - s.tokenStart, s.tokenLine, s.tokenColumn, s.source, value⟩])

def lexicalError (cause : LexicalFault) (m : Memory) : Memory :=
  m.report ⟨m.scanner.source.name, ⟨m.scanner.tokenLine, m.scanner.tokenColumn⟩, cause.message,
    cause.code⟩

def addReading (m : Memory) : Reading → Memory
  | .blank => m
  | .token kind value => m.addToken kind value
  | .fault cause => m.lexicalError cause

def scanToken (m : Memory) : Memory :=
  match m.unread with
  | [] => m
  | u :: r =>
    let extent := Shape.atFront u r
    let m := readUnits (extent.size - 1) m.readUnit
    m.addReading (extent.shape.read m.lexeme)

def standAt (m : Memory) (p : Place) : Memory :=
  { m with scanner := { m.scanner with current := p.offset, line := p.line, column := p.column } }

variable {m : Memory} {u : UInt16} {r t : Text}

theorem readUnit_eq (h : m.unread = u :: r) : m.readUnit = m.standAt (m.place.next u) := by
  have hu : m.scanner.source.text[m.scanner.current]? = some u := by
    rw [← List.head?_drop]
    exact congrArg List.head? h
  simp only [readUnit, hu, Option.some.injEq, Place.next, place]
  split <;> rfl

theorem unread_standAt (h : m.unread = t ++ r) : (m.standAt (m.place.after t)).unread = r := by
  change m.scanner.source.text.drop (m.place.after t).offset = r
  rw [Place.after_offset, ← List.drop_drop]
  change m.unread.drop t.length = r
  rw [h, List.drop_left]

theorem readUnits_eq (h : m.unread = t ++ r) :
    readUnits t.length m = m.standAt (m.place.after t) := by
  induction t generalizing m with
  | nil => rfl
  | cons u t ih =>
    have hunread : (m.standAt (m.place.next u)).unread = t ++ r := unread_standAt (t := [u]) h
    rw [List.length_cons, readUnits, readUnit_eq h, ih hunread]
    rfl

theorem scanToken_eq (h : m.unread = u :: r) :
    m.beginToken.scanToken =
      (m.beginToken.standAt (m.place.after (Segment.atFront u r).lexeme)).addReading
        (Segment.atFront u r).reading := by
  have hunread : m.beginToken.unread = u :: r := h
  have hfront : m.beginToken.unread = (Segment.atFront u r).lexeme ++ _ :=
    h.trans (Segment.atFront_lexeme u r).symm
  have hread : readUnits ((Shape.atFront u r).size - 1) m.beginToken.readUnit =
      m.beginToken.standAt (m.place.after (Segment.atFront u r).lexeme) := by
    have hunits := readUnits_eq hfront
    rw [Segment.atFront_length, ← Nat.sub_add_cancel (Shape.atFront_size u r).1] at hunits
    exact hunits
  have hlexeme : (m.beginToken.standAt (m.place.after (Segment.atFront u r).lexeme)).lexeme =
      (Segment.atFront u r).lexeme := by
    change m.beginToken.unread.take
      ((m.place.after (Segment.atFront u r).lexeme).offset - m.place.offset) = _
    rw [Place.after_offset, Nat.add_sub_cancel_left, hfront, List.take_left]
  simp only [scanToken, hunread, hread, hlexeme]
  rfl

/-- What is scanned goes to the end of the scanner's array and to the diagnostics, and nothing else
changes but the scanner. -/
def ScansTo (m m' : Memory) (tokens : List Token) (log : Log) : Prop :=
  m'.arrays = m.arrays.set m.scanner.tokens (m.array m.scanner.tokens ++ tokens) ∧
    m'.diagnostics = m.diagnostics.reports log ∧ m'.scanner.tokens = m.scanner.tokens ∧
    m'.scanner.source = m.scanner.source

theorem ScansTo.trans {m₁ m₂ m₃ : Memory} {ts us : List Token} {log log' : Log}
    (hown : m₁.scanner.tokens < m₁.arrays.length) (h : m₁.ScansTo m₂ ts log)
    (h' : m₂.ScansTo m₃ us log') : m₁.ScansTo m₃ (ts ++ us) (log ++ log') := by
  obtain ⟨ha, hd, ht, hs⟩ := h
  obtain ⟨ha', hd', ht', hs'⟩ := h'
  have harray : m₂.array m₁.scanner.tokens = m₁.array m₁.scanner.tokens ++ ts := by
    simp [array, ha, hown]
  refine ⟨?_, ?_, ht'.trans ht, hs'.trans hs⟩
  · rw [ha', ht, harray, ha, List.set_set, List.append_assoc]
  · rw [hd', hd, Collected.reports_append]

theorem scansTo_addReading {p : Place} {s : Segment} (hp : p = m.place.after s.lexeme) :
    m.ScansTo ((m.beginToken.standAt p).addReading s.reading)
        (s.token? m.scanner.source m.place).toList (s.report? m.scanner.source m.place).toList ∧
      ((m.beginToken.standAt p).addReading s.reading).place = p := by
  have hlength : p.offset - m.scanner.current = s.lexeme.length := by
    rw [hp, Place.after_offset, place, Nat.add_sub_cancel_left]
  unfold Segment.token? Segment.report?
  cases s.reading with
  | blank =>
    refine ⟨⟨?_, rfl, rfl, rfl⟩, rfl⟩
    simp only [Option.toList_none, List.append_nil, set_array_self]
    rfl
  | token kind value =>
    refine ⟨⟨?_, rfl, rfl, rfl⟩, rfl⟩
    rw [← hlength]
    rfl
  | fault cause =>
    refine ⟨⟨?_, rfl, rfl, rfl⟩, rfl⟩
    simp only [Option.toList_none, List.append_nil, set_array_self]
    rfl

theorem scansTo_scanToken (h : m.unread = u :: r) :
    m.ScansTo m.beginToken.scanToken
        ((Segment.atFront u r).token? m.scanner.source m.place).toList
        ((Segment.atFront u r).report? m.scanner.source m.place).toList ∧
      m.beginToken.scanToken.place = m.place.after (Segment.atFront u r).lexeme := by
  rw [scanToken_eq h]
  exact scansTo_addReading rfl

theorem unread_ne_nil (h : m.scanner.current < m.scanner.source.text.length) :
    ∃ u r, m.unread = u :: r :=
  List.exists_cons_of_ne_nil fun hnil => by
    have := List.drop_eq_nil_iff.1 hnil
    omega

def scanTokens (m : Memory) : Memory :=
  if m.scanner.current < m.scanner.source.text.length then scanTokens m.beginToken.scanToken else m
termination_by m.scanner.source.text.length - m.scanner.current
decreasing_by
  next h =>
  obtain ⟨u, r, hunread⟩ := unread_ne_nil h
  obtain ⟨⟨-, -, -, hsource⟩, hplace⟩ := scansTo_scanToken hunread
  have hcurrent : m.beginToken.scanToken.scanner.current =
      m.scanner.current + (Segment.atFront u r).lexeme.length := by
    have hoffset := congrArg Place.offset hplace
    rwa [Place.after_offset] at hoffset
  have hsize := (Shape.atFront_size u r).1
  rw [Segment.atFront_length] at hcurrent
  rw [hsource, hcurrent]
  omega

theorem filterMap_cons_toList {α β : Type} (f : α → Option β) (a : α) (as : List α) :
    (a :: as).filterMap f = (f a).toList ++ as.filterMap f := by
  cases h : f a <;> simp [h]

theorem scansTo_scanTokens (hown : m.scanner.tokens < m.arrays.length) :
    m.ScansTo m.scanTokens
        ((placed m.place (Segment.ofText m.unread)).filterMap fun (p, s) =>
          s.token? m.scanner.source p)
        ((placed m.place (Segment.ofText m.unread)).filterMap fun (p, s) =>
          s.report? m.scanner.source p) ∧
      m.scanTokens.place = m.place.after m.unread := by
  fun_induction scanTokens m with
  | case1 m h ih =>
    obtain ⟨u, r, hunread⟩ := unread_ne_nil h
    obtain ⟨hstep, hplace⟩ := scansTo_scanToken hunread
    have ⟨harrays, _, htokens, hsource⟩ := hstep
    have hrest : m.beginToken.scanToken.unread = r.drop ((Shape.atFront u r).size - 1) := by
      change m.beginToken.scanToken.scanner.source.text.drop m.beginToken.scanToken.place.offset = _
      rw [hsource, hplace]
      exact unread_standAt (hunread.trans (Segment.atFront_lexeme u r).symm)
    obtain ⟨hscan, hend⟩ := ih (by rw [harrays, htokens, List.length_set]; exact hown)
    rw [hsource, hplace, hrest] at hscan
    rw [hplace, hrest, ← Place.after_append, Segment.atFront_lexeme] at hend
    rw [hunread, Segment.ofText, placed, filterMap_cons_toList, filterMap_cons_toList]
    exact ⟨hstep.trans hown hscan, hend⟩
  | case2 m h =>
    have hunread : m.unread = [] := List.drop_eq_nil_iff.2 (by omega)
    rw [hunread, Segment.ofText]
    refine ⟨⟨?_, rfl, rfl, rfl⟩, rfl⟩
    simp only [placed, List.filterMap_nil, List.append_nil, set_array_self]

/-- Scans a source into a new array, whose address it gives back. What the fields of the scanner
held before is not used. -/
def scan (source : Source) (m : Memory) : Nat × Memory :=
  let fields : ScannerFields :=
    { m.scanner with source, tokens := m.arrays.length, current := 0, line := 1, column := 1 }
  let m' := (scanTokens { m.allocate [] with scanner := fields }).beginToken.addToken .eof none
  (m'.scanner.tokens, m')

theorem addToken_end_arrays (m : Memory) : (m.beginToken.addToken .eof none).arrays =
    m.arrays.set m.scanner.tokens (m.array m.scanner.tokens ++
      [⟨.eof, m.place.offset, 0, m.place.line, m.place.column, m.scanner.source, none⟩]) := by
  simp [addToken, beginToken, write, place, array]

theorem scan_eq (source : Source) (m : Memory) :
    (m.scan source).1 = m.arrays.length ∧
      (m.scan source).2.arrays = m.arrays ++ [source.scan.tokens] ∧
      (m.scan source).2.diagnostics = m.diagnostics.reports source.scan.reports := by
  let m₀ : Memory := { m.allocate [] with
    scanner := { m.scanner with
      source, tokens := m.arrays.length, current := 0, line := 1, column := 1 } }
  have hown : m₀.scanner.tokens < m₀.arrays.length := by simp [m₀, allocate]
  obtain ⟨⟨harrays, hdiagnostics, htokens, hsource⟩, hplace⟩ := scansTo_scanTokens hown
  have hplace : m₀.scanTokens.place = Place.start.after source.text := hplace
  have hscanned : m₀.scanTokens.arrays = m.arrays ++
      [(placed .start (Segment.ofText source.text)).filterMap fun (p, s) => s.token? source p] := by
    refine harrays.trans ?_
    simp [m₀, allocate, array, place, unread, Place.start]
  refine ⟨htokens, ?_, hdiagnostics⟩
  refine (addToken_end_arrays m₀.scanTokens).trans ?_
  rw [hplace, hsource, htokens, array, hscanned]
  simp [m₀, Source.scan, Source.endToken]

end Memory

end Instances

end Seanet
