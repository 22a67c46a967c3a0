import Seanet.Proofs.Lexical.Greedy

set_option autoImplicit false

namespace Seanet

namespace Lexical

theorem markTexts_sorted :
    Kind.markTexts.Pairwise fun x y : Text × Kind => y.1.length ≤ x.1.length := by decide

theorem markTexts_inj : ∀ x ∈ Kind.markTexts, ∀ y ∈ Kind.markTexts, x.1 = y.1 → x = y := by decide

theorem markTexts_units : ∀ x ∈ Kind.markTexts, ∀ u ∈ x.1,
    isBlank u = false ∧ u ≠ Text.unit '"' ∧ isDigit u = false ∧ isAlpha u = false := by
  have htable : ∀ x ∈ Kind.markTexts, x.1.all (fun u =>
      !isBlank u && u != Text.unit '"' && !isDigit u && !isAlpha u) = true := by decide
  intro x hx u hu
  simpa [and_assoc] using List.all_eq_true.1 (htable x hx) u hu

theorem markTexts_slash : ∀ x ∈ Kind.markTexts, x.1.head? = some (Text.unit '/') →
    x.1 = [Text.unit '/'] ∨ x.1 = [Text.unit '/', Text.unit '='] := by decide

theorem mark?_next {m : Text} {k : Kind} (h : (m, k) ∈ Kind.markTexts) (rest : Text) :
    mark? (m ++ rest) = some ⟨.mark k, m.length⟩ ∨ ∃ e v rest', mark? (m ++ rest) = some e ∧
      m.length < e.size ∧ rest = v :: rest' ∧ isBlank v = false := by
  have hfront : m.isPrefixOf (m ++ rest) = true :=
    List.isPrefixOf_iff_prefix.2 (List.prefix_append m rest)
  cases hf : Kind.markTexts.find? fun x => x.1.isPrefixOf (m ++ rest) with
  | none => exact absurd hfront (by simpa using List.find?_eq_none.1 hf _ h)
  | some x =>
    have hmark : mark? (m ++ rest) = some ⟨.mark x.2, x.1.length⟩ := by
      simp only [mark?, hf, Option.map_some]
    obtain ⟨hx, before, after, htable, hbefore⟩ := List.find?_eq_some_iff_append.1 hf
    have hxm := List.mem_of_find?_eq_some hf
    have hxf : x.1 <+: m ++ rest := List.isPrefixOf_iff_prefix.1 hx
    -- The table is sorted, and no mark before `x` is at the front.
    have hle : m.length ≤ x.1.length := by
      have hsorted := markTexts_sorted
      rw [htable] at h hsorted
      obtain hm | hm := List.mem_append.1 h
      · have hnot := hbefore _ hm
        simp only [hfront, Bool.not_true, Bool.false_eq_true] at hnot
      · obtain rfl | hm := List.mem_cons.1 hm
        · exact Nat.le_refl _
        · exact (List.pairwise_cons.1 (List.pairwise_append.1 hsorted).2.1).1 _ hm
    obtain ⟨s, hs⟩ := List.prefix_of_prefix_length_le (List.prefix_append m rest) hxf hle
    cases s with
    | nil =>
      rw [List.append_nil] at hs
      obtain rfl := markTexts_inj _ h _ hxm hs
      exact .inl hmark
    | cons v s =>
      obtain ⟨rest', hrest⟩ := hxf
      rw [← hs, List.append_assoc, List.append_cancel_left_eq, List.cons_append] at hrest
      have hv := markTexts_units x hxm v (by simp [← hs])
      refine .inr ⟨_, v, _, hmark, ?_, hrest.symm, hv.1⟩
      simp only [← hs, List.length_append, List.length_cons]
      omega

theorem blockMark_front {u : UInt16} {t : Text} :
    blockMark <+: u :: t ↔ u = Text.unit '*' ∧ t.head? = some (Text.unit '/') := by
  cases t with
  | nil => simp [blockMark]
  | cons v t => simp [blockMark, List.cons_prefix_cons, eq_comm]

theorem blockEnd?_cons {u v : UInt16} (r : Text) (h : ¬ blockMark <+: u :: v :: r) :
    blockEnd? (u :: v :: r) = (blockEnd? (v :: r)).map (· + 1) := by
  simp only [blockEnd?]
  refine if_neg fun hc => h ?_
  simpa [blockMark_front] using hc

theorem blockEnd?_mark (r : Text) : blockEnd? (blockMark ++ r) = some 2 := rfl

theorem blockEnd?_append {t : Text} (h : ¬ blockMark <:+: t ++ [Text.unit '*']) (rest : Text) :
    blockEnd? (t ++ blockMark ++ rest) = some (t.length + 2) := by
  induction t with
  | nil => exact blockEnd?_mark rest
  | cons u t ih =>
    rw [List.cons_append, List.infix_cons_iff, not_or] at h
    have htail : ∃ v r, t ++ blockMark ++ rest = v :: r ∧
        (t ++ [Text.unit '*']).head? = some v := by
      cases t with
      | nil => exact ⟨_, _, rfl, rfl⟩
      | cons v t => exact ⟨_, _, rfl, rfl⟩
    obtain ⟨v, r, hr, hv⟩ := htail
    rw [List.cons_append, List.cons_append, hr, blockEnd?_cons, ← hr, ih h.2]
    · simp
    · -- An end right here would have begun before the last two units.
      rw [blockMark_front, hv] at h
      rw [blockMark_front]
      exact h.1

theorem blockEnd?_some {r : Text} {n : Nat} (h : blockEnd? r = some n) : ∃ t rest,
    r = t ++ blockMark ++ rest ∧ n = t.length + 2 ∧ ¬ blockMark <:+: t ++ [Text.unit '*'] := by
  fun_induction blockEnd? r generalizing n with
  | case1 => cases h
  | case2 => cases h
  | case3 u v r hc =>
    simp only [Bool.and_eq_true, beq_iff_eq] at hc
    obtain ⟨rfl, rfl⟩ := hc
    obtain rfl := Option.some.inj h
    exact ⟨[], r, rfl, rfl, by decide⟩
  | case4 u v r hc ih =>
    obtain ⟨m, hm, rfl⟩ := Option.map_eq_some_iff.1 h
    obtain ⟨t, rest, ht, rfl, hn⟩ := ih hm
    refine ⟨u :: t, rest, by rw [ht]; rfl, rfl, ?_⟩
    rw [List.cons_append, List.infix_cons_iff, not_or, blockMark_front]
    refine ⟨?_, hn⟩
    rintro ⟨rfl, hhead⟩
    refine hc ?_
    cases t with
    | nil => exact absurd hhead (by decide)
    | cons w t =>
      obtain ⟨rfl, -⟩ := List.cons.inj ht
      simpa using hhead

theorem blockEnd?_eq_none {r : Text} (h : blockEnd? r = none) : ¬ blockMark <:+: r := by
  fun_induction blockEnd? r with
  | case1 => simp [blockMark]
  | case2 u =>
    intro hi
    have hle := hi.length_le
    simp [blockMark] at hle
  | case3 => cases h
  | case4 u v r hc ih =>
    rw [List.infix_cons_iff, not_or, blockMark_front]
    exact ⟨by simpa using hc, ih (Option.map_eq_none_iff.1 h)⟩

end Lexical

open Lexical

namespace Shape

theorem atFront_quote (r : Text) : atFront (Text.unit '"') r = stringOf r := rfl

theorem atFront_digit {u : UInt16} (hu : isDigit u = true) (r : Text) :
    atFront u r = number (u :: r) := by
  have hblank : isBlank u = false := by grind [isBlank, isDigit]
  have hquote : (u == Text.unit '"') = false := by
    rw [beq_eq_false_iff_ne]
    rintro rfl
    exact absurd hu (by decide)
  simp [atFront, hblank, hquote, hu]

theorem atFront_alpha {u : UInt16} (hu : isAlpha u = true) (r : Text) :
    atFront u r = ⟨.word, 1 + run isWordUnit r⟩ := by
  have hblank : isBlank u = false := by grind [isBlank, isAlpha]
  have hdigit : isDigit u = false := by grind [isDigit, isAlpha]
  have hquote : (u == Text.unit '"') = false := by
    rw [beq_eq_false_iff_ne]
    rintro rfl
    exact absurd hu (by decide)
  simp [atFront, hblank, hquote, hdigit, hu]

theorem atFront_other {u : UInt16} (hb : isBlank u = false) (hq : u ≠ Text.unit '"')
    (hd : isDigit u = false) (ha : isAlpha u = false) (r : Text) :
    atFront u r = ((if u == Text.unit '/' then afterSlash? r else none).getD
      ((mark? (u :: r)).getD (strayOf u r))) := by
  simp only [atFront, hb, beq_eq_false_iff_ne.2 hq, hd, ha]
  simp only [Bool.false_eq_true, if_false]
  split
  · next he => rw [he]; rfl
  · next he => rw [he]; rfl

theorem atFront_slash (r : Text) : atFront (Text.unit '/') r =
    ((afterSlash? r).getD ((mark? (Text.unit '/' :: r)).getD (strayOf (Text.unit '/') r))) :=
  atFront_other (by decide) (by decide) (by decide) (by decide) r

end Shape

namespace Lexical

theorem TailSpells.spells {shape : Shape} {digits tail : Text} (hd : Digits digits)
    (h : TailSpells shape tail) : Spells shape (digits ++ tail) := by
  cases h with
  | decimal hs => exact .integer (.decimal hd) hs
  | @hexadecimal mark type hex suffix hm hh hs =>
    have hassoc : digits ++ mark :: (hex ++ suffix) = (digits ++ mark :: hex) ++ suffix := by simp
    rw [hassoc]
    by_cases hn : digits = [Text.unit '0'] ∧ hex ≠ []
    · obtain ⟨rfl, hn⟩ := hn
      exact .integer (.hexadecimal hm hn hh) hs
    · exact .integer (.malformed hd hm hh (by grind)) hs
  | @real type fraction point power suffix e hf he hn hs =>
    have hassoc : digits ++ (point ++ power ++ suffix) = (digits ++ point ++ power) ++ suffix := by
      simp
    rw [hassoc]
    exact .real (.mk hd hf he hn) hs

theorem IntegerBody.tail {radix : Radix} {type : IntegerType} {n : Option Nat} {body suffix : Text}
    (h : IntegerBody radix n body) (hs : IntegerSuffix type suffix) : ∃ digits tail,
    body ++ suffix = digits ++ tail ∧ Digits digits ∧ TailSpells (.integer radix type) tail := by
  cases h with
  | decimal hd => exact ⟨_, _, rfl, hd, .decimal hs⟩
  | @hexadecimal mark digits hm hn hh =>
    exact ⟨[Text.unit '0'], mark :: (digits ++ suffix), rfl,
      ⟨by simp, List.forall_mem_singleton.2 rfl⟩, .hexadecimal hm hh hs⟩
  | @malformed mark whole digits hw hm hh hn =>
    exact ⟨whole, mark :: (digits ++ suffix), by simp, hw, .hexadecimal hm hh hs⟩

theorem RealBody.tail {type : RealType} {d : Decimal} {body suffix : Text} (h : RealBody d body)
    (hs : RealSuffix type suffix) : ∃ digits tail,
    body ++ suffix = digits ++ tail ∧ Digits digits ∧ TailSpells (.real type) tail := by
  cases h with
  | @mk whole digits point power e hw hf he hn =>
    exact ⟨whole, point ++ power ++ suffix, by simp, hw, .real hf he hn hs⟩

theorem Digits.head {digits tail r : Text} {u : UInt16} (h : Digits digits)
    (ht : digits ++ tail <+: u :: r) : isDigit u = true := by
  obtain ⟨d, ds, rfl⟩ := List.exists_cons_of_ne_nil h.1
  obtain ⟨rfl, -⟩ := List.cons_prefix_cons.1 ht
  exact h.2 d (by simp)

/-- A unit that ends every lexeme of a shape: what follows it does not belong to the lexeme. -/
def ends : Shape → UInt16 → Bool
  | .comment, u => u == Text.lineFeed
  | _, u => isBlank u

/-- The extent found is the lexeme's own, or a longer one that begins with it. -/
def Finds (shape : Shape) (l rest : Text) (e : Extent) : Prop :=
  e = ⟨shape, l.length⟩ ∨ (l.length < e.size ∧ ∃ v r, rest = v :: r ∧ ends shape v = false)

theorem number_finds {shape : Shape} {digits tail : Text} (hd : Digits digits)
    (h : TailSpells shape tail) (hends : ∀ u, ends shape u = isBlank u) {u : UInt16}
    {r rest : Text} (ht : (digits ++ tail) ++ rest = u :: r) :
    Finds shape (digits ++ tail) rest (Shape.atFront u r) := by
  rw [Shape.atFront_digit (hd.head ⟨rest, ht⟩), ← ht]
  obtain ⟨hv, hs⟩ | ⟨hlt, v, r', hr, hv⟩ := number_greedy.next rest ⟨digits, tail, rfl, hd.2, h⟩
  · exact .inl (by rw [← hv, ← hs])
  · refine .inr ⟨hlt, v, r', hr, ?_⟩
    rw [hends]
    grind [inNumber, isWordUnit, isAlpha, isDigit, isBlank, Text.unit]

theorem afterSlash?_some {r : Text} {e : Extent} (h : afterSlash? r = some e) : ∃ v r',
    r = v :: r' ∧ (v = Text.unit '/' ∨ v = Text.unit '*') ∧ 2 ≤ e.size := by
  cases r with
  | nil => cases h
  | cons v r =>
    simp only [afterSlash?] at h
    split at h
    · next hv =>
      obtain rfl := Option.some.inj h
      exact ⟨v, r, rfl, .inl (by simpa using hv), by simp only; omega⟩
    · split at h
      · next hv =>
        refine ⟨v, r, rfl, .inr (by simpa using hv), ?_⟩
        split at h <;> obtain rfl := Option.some.inj h <;> simp only <;> omega
      · cases h

theorem mark_finds {m : Text} {k : Kind} (h : (m, k) ∈ Kind.markTexts) {u : UInt16} {r rest : Text}
    (ht : m ++ rest = u :: r) : Finds (.mark k) m rest (Shape.atFront u r) := by
  obtain ⟨w, m', rfl⟩ : ∃ w m', m = w :: m' :=
    List.exists_cons_of_ne_nil (List.ne_nil_of_length_pos (markTexts_spec _ h).1)
  rw [List.cons_append] at ht
  obtain ⟨rfl, rfl⟩ := List.cons.inj ht
  obtain ⟨hb, hq, hd, ha⟩ := markTexts_units _ h w (by simp)
  rw [Shape.atFront_other hb hq hd ha]
  cases hc : if w == Text.unit '/' then afterSlash? (m' ++ rest) else none with
  | some e =>
    split at hc
    · -- A slash that begins a comment is the mark by itself.
      next hw =>
      obtain rfl : w = Text.unit '/' := by simpa using hw
      obtain ⟨v, r', hr, hv, hsize⟩ := afterSlash?_some hc
      obtain rfl : m' = [] := by
        obtain hm | hm := markTexts_slash _ h rfl
        · exact (List.cons.inj hm).2
        · obtain ⟨-, rfl⟩ := List.cons.inj hm
          obtain ⟨rfl, -⟩ := List.cons.inj hr
          exact absurd hv (by decide)
      refine .inr ⟨hsize, v, r', hr, ?_⟩
      obtain rfl | rfl := hv <;> rfl
    · cases hc
  | none =>
    obtain hm | ⟨e, v, r', hm, hsize, hr, hv⟩ := mark?_next h rest
    · rw [List.cons_append] at hm
      rw [hm]
      exact .inl rfl
    · rw [List.cons_append] at hm
      rw [hm]
      exact .inr ⟨hsize, v, r', hr, hv⟩

theorem bne_of_not_mem {c : UInt16} {t : Text} (h : c ∉ t) : ∀ u ∈ t, (u != c) = true := by
  intro u hu
  rw [bne_iff_ne]
  rintro rfl
  exact h hu

theorem lineComment_finds {t : Text} (h : Text.lineFeed ∉ t) (rest : Text) :
    Finds .comment (Text.unit '/' :: Text.unit '/' :: t) rest
      (Shape.atFront (Text.unit '/') (Text.unit '/' :: (t ++ rest))) := by
  have hfront : Shape.atFront (Text.unit '/') (Text.unit '/' :: (t ++ rest)) =
      ⟨.comment, 2 + run (· != Text.lineFeed) (t ++ rest)⟩ := rfl
  rw [hfront]
  obtain ⟨-, hs⟩ | ⟨hlt, v, r, rfl, hv⟩ :=
    (run_greedy (· != Text.lineFeed)).next (b := ()) rest (bne_of_not_mem h)
  · exact .inl (by rw [hs, List.length_cons, List.length_cons, Nat.add_comm])
  · refine .inr ⟨by simp only [List.length_cons]; omega, v, r, rfl, ?_⟩
    simpa [ends] using hv

theorem atFront_blockComment {t : Text} (h : ¬ blockMark <:+: t ++ [Text.unit '*']) (rest : Text) :
    Shape.atFront (Text.unit '/') (Text.unit '*' :: (t ++ blockMark ++ rest)) =
      ⟨.comment, (Text.unit '/' :: Text.unit '*' :: t ++ blockMark).length⟩ := by
  have hafter : afterSlash? (Text.unit '*' :: (t ++ blockMark ++ rest)) =
      some ⟨.comment, 2 + (t.length + 2)⟩ := by
    have hslash : (Text.unit '*' == Text.unit '/') = false := by decide
    simp only [afterSlash?, hslash, blockEnd?_append h]
    rfl
  rw [Shape.atFront_slash, hafter]
  simp only [Option.getD_some, blockMark, List.length_append, List.length_cons, List.length_nil,
    Extent.mk.injEq, true_and]
  omega

theorem stringOf_closed {t : Text} (h : Text.unit '"' ∉ t) (rest : Text) :
    stringOf (t ++ Text.unit '"' :: rest) = ⟨.string, t.length + 2⟩ := by
  have hrun : run (· != Text.unit '"') (t ++ Text.unit '"' :: rest) = t.length := by
    rw [run_append (bne_of_not_mem h)]
    rfl
  rw [stringOf, hrun]
  exact if_pos (by simp)

theorem stringOf_open {r : Text} (h : Text.unit '"' ∉ r) :
    stringOf r = ⟨.openString, r.length + 1⟩ := by
  have hrun : run (· != Text.unit '"') r = r.length := by
    have happend := run_append (bne_of_not_mem h) []
    rwa [List.append_nil] at happend
  rw [stringOf, hrun]
  exact if_neg (Nat.lt_irrefl _)

theorem word_finds {u : UInt16} {t : Text} (hu : isAlpha u = true)
    (h : ∀ v ∈ t, isWordUnit v = true) (rest : Text) :
    Finds .word (u :: t) rest (Shape.atFront u (t ++ rest)) := by
  rw [Shape.atFront_alpha hu]
  obtain ⟨-, hs⟩ | ⟨hlt, v, r, rfl, hv⟩ := (run_greedy isWordUnit).next (b := ()) rest h
  · exact .inl (by rw [hs, List.length_cons, Nat.add_comm])
  · refine .inr ⟨by simp only [List.length_cons]; omega, v, r, rfl, ?_⟩
    change isBlank v = false
    grind [isWordUnit, isAlpha, isDigit, isBlank]

end Lexical

/-- A lexeme at the front of a text is found there, or a longer one. -/
theorem Lexical.Spells.finds {shape : Shape} {l : Text} (h : Spells shape l) {u : UInt16}
    {r rest : Text} (ht : l ++ rest = u :: r) : Finds shape l rest (Shape.atFront u r) := by
  cases h with
  | mark hm => exact mark_finds hm ht
  | lineComment hl =>
    obtain ⟨rfl, rfl⟩ := List.cons.inj ht
    exact lineComment_finds hl rest
  | blockComment hb =>
    obtain ⟨rfl, rfl⟩ := List.cons.inj ht
    exact .inl (atFront_blockComment hb rest)
  | string hs =>
    rw [List.append_assoc, List.cons_append] at ht
    obtain ⟨rfl, rfl⟩ := List.cons.inj ht
    rw [List.singleton_append, Shape.atFront_quote, stringOf_closed hs]
    exact .inl (by simp)
  | word hu hw =>
    obtain ⟨rfl, rfl⟩ := List.cons.inj ht
    exact word_finds hu hw rest
  | integer hb hs =>
    obtain ⟨digits, tail, hl, hd, htail⟩ := hb.tail hs
    rw [hl] at ht ⊢
    exact number_finds hd htail (fun _ => rfl) ht
  | real hb hs =>
    obtain ⟨digits, tail, hl, hd, htail⟩ := hb.tail hs
    rw [hl] at ht ⊢
    exact number_finds hd htail (fun _ => rfl) ht

namespace Lexical

theorem stringOf_found (r : Text) :
    Spells (stringOf r).shape ((Text.unit '"' :: r).take (stringOf r).size) ∨
      OpensString (Text.unit '"' :: r) ∧ stringOf r = ⟨.openString, r.length + 1⟩ := by
  by_cases h : Text.unit '"' ∈ r
  · obtain ⟨t, rest, rfl, ht⟩ := List.eq_append_cons_of_mem h
    rw [stringOf_closed ht]
    refine .inl ?_
    have htake : (Text.unit '"' :: (t ++ Text.unit '"' :: rest)).take (t.length + 2) =
        Text.unit '"' :: t ++ [Text.unit '"'] := by
      rw [List.take_succ_cons, List.take_length_add_append]
      rfl
    rw [htake]
    exact .string ht
  · exact .inr ⟨⟨r, rfl, h⟩, stringOf_open h⟩

theorem number_found {u : UInt16} (hu : isDigit u = true) (r : Text) :
    Spells (number (u :: r)).shape ((u :: r).take (number (u :: r)).size) := by
  obtain ⟨digits, tail, ht, hd, htail⟩ := number_greedy.spells (u :: r)
  rw [ht]
  refine htail.spells ⟨?_, hd⟩
  rintro rfl
  -- Without digits the first unit would belong to what follows them.
  have hpos := (number_proper hu r).pos
  obtain ⟨n, hn⟩ : ∃ n, (number (u :: r)).size = n + 1 := ⟨_, (Nat.succ_pred_eq_of_pos hpos).symm⟩
  rw [hn, List.take_succ_cons, List.nil_append] at ht
  rw [← ht] at htail
  rw [htail.head] at hu
  cases hu

theorem word_found {u : UInt16} (hu : isAlpha u = true) (r : Text) :
    Spells .word ((u :: r).take (1 + run isWordUnit r)) := by
  rw [Nat.add_comm, List.take_succ_cons]
  exact .word hu ((run_greedy isWordUnit).spells r)

theorem afterSlash?_found {r : Text} {e : Extent} (h : afterSlash? r = some e) :
    Spells e.shape ((Text.unit '/' :: r).take e.size) ∨
      OpensComment (Text.unit '/' :: r) ∧ e = ⟨.openComment, r.length + 1⟩ := by
  obtain ⟨v, r, rfl, rfl | rfl, -⟩ := afterSlash?_some h
  · obtain rfl := Option.some.inj h
    rw [Nat.add_comm, List.take_succ_cons, List.take_succ_cons]
    refine .inl (.lineComment fun hl => ?_)
    exact absurd ((run_greedy (· != Text.lineFeed)).spells r _ hl) (by decide)
  · have hstar : (Text.unit '*' == Text.unit '/') = false := by decide
    simp only [afterSlash?, hstar, Bool.false_eq_true, if_false, beq_self_eq_true, if_true] at h
    split at h
    · next n hn =>
      obtain rfl := Option.some.inj h
      obtain ⟨t, rest, rfl, rfl, ht⟩ := blockEnd?_some hn
      refine .inl ?_
      have htake : (Text.unit '/' :: Text.unit '*' :: (t ++ blockMark ++ rest)).take
          (2 + (t.length + 2)) = Text.unit '/' :: Text.unit '*' :: t ++ blockMark := by
        rw [Nat.add_comm, List.take_succ_cons, List.take_succ_cons, List.append_assoc,
          List.take_length_add_append]
        rfl
      rw [htake]
      exact .blockComment ht
    · next hn =>
      obtain rfl := Option.some.inj h
      refine .inr ⟨⟨r, rfl, blockEnd?_eq_none hn⟩, ?_⟩
      rw [List.length_cons, Nat.add_comm]

theorem mark?_found {t : Text} {e : Extent} (h : mark? t = some e) :
    Spells e.shape (t.take e.size) := by
  obtain ⟨m, hm, rfl⟩ := Option.map_eq_some_iff.1 h
  have hfront : m.1.isPrefixOf t = true := by simpa using List.find?_some hm
  obtain ⟨rest, rfl⟩ := List.isPrefixOf_iff_prefix.1 hfront
  rw [List.take_left]
  exact .mark (List.mem_of_find?_eq_some hm)

theorem Spells.front {shape : Shape} {l : Text} (h : Spells shape l) {u : UInt16} {r : Text}
    (hl : l <+: u :: r) : u = Text.unit '"' ∨ isDigit u = true ∨ isAlpha u = true ∨
      ∃ x ∈ Kind.markTexts, x.1 <+: u :: r := by
  have hslash : ([Text.unit '/'], Kind.slash) ∈ Kind.markTexts := by decide
  cases h with
  | mark hm => exact .inr (.inr (.inr ⟨_, hm, hl⟩))
  | lineComment _ =>
    exact .inr (.inr (.inr ⟨_, hslash, .trans (List.prefix_append _ _) hl⟩))
  | blockComment _ =>
    exact .inr (.inr (.inr ⟨_, hslash, .trans (List.prefix_append _ _) hl⟩))
  | string _ => exact .inl (List.cons_prefix_cons.1 hl).1.symm
  | word hu _ =>
    obtain ⟨rfl, -⟩ := List.cons_prefix_cons.1 hl
    exact .inr (.inr (.inl hu))
  | integer hb hs =>
    obtain ⟨digits, tail, ht, hd, -⟩ := hb.tail hs
    exact .inr (.inl (hd.head (ht ▸ hl)))
  | real hb hs =>
    obtain ⟨digits, tail, ht, hd, -⟩ := hb.tail hs
    exact .inr (.inl (hd.head (ht ▸ hl)))

end Lexical

theorem Shape.atFront_found (u : UInt16) (r : Text) :
    Spells (atFront u r).shape ((u :: r).take (atFront u r).size) ∨
    (isBlank u = true ∧ atFront u r = ⟨.blank, 1⟩) ∨
    (OpensComment (u :: r) ∧ atFront u r = ⟨.openComment, r.length + 1⟩) ∨
    (OpensString (u :: r) ∧ atFront u r = ⟨.openString, r.length + 1⟩) ∨
    (isBlank u = false ∧ ¬ OpensString (u :: r) ∧ (∀ shape l, Spells shape l → ¬ l <+: u :: r) ∧
      atFront u r = strayOf u r) := by
  cases hb : isBlank u with
  | true => exact .inr (.inl ⟨rfl, by simp [atFront, hb]⟩)
  | false =>
    by_cases hq : u = Text.unit '"'
    · subst hq
      rw [atFront_quote]
      obtain h | h := stringOf_found r
      · exact .inl h
      · exact .inr (.inr (.inr (.inl h)))
    cases hd : isDigit u with
    | true =>
      rw [atFront_digit hd]
      exact .inl (number_found hd r)
    | false =>
      cases ha : isAlpha u with
      | true =>
        rw [atFront_alpha ha]
        exact .inl (word_found ha r)
      | false =>
        rw [atFront_other hb hq hd ha]
        cases hc : if u == Text.unit '/' then afterSlash? r else none with
        | some e =>
          split at hc
          · next hu =>
            obtain rfl : u = Text.unit '/' := by simpa using hu
            obtain h | h := afterSlash?_found hc
            · exact .inl h
            · exact .inr (.inr (.inl h))
          · cases hc
        | none =>
          cases hm : mark? (u :: r) with
          | some e => exact .inl (mark?_found hm)
          | none =>
            refine .inr (.inr (.inr (.inr ⟨rfl, ?_, ?_, rfl⟩)))
            · rintro ⟨s, hs, -⟩
              exact hq (List.cons.inj hs).1
            · intro shape l hl hp
              obtain rfl | h | h | ⟨x, hx, hxp⟩ := hl.front hp
              · exact hq rfl
              · rw [hd] at h
                cases h
              · rw [ha] at h
                cases h
              · have hnone := List.find?_eq_none.1 (Option.map_eq_none_iff.1 hm) x hx
                exact hnone (List.isPrefixOf_iff_prefix.2 hxp)

namespace Lexical

theorem Spells.ne_nil {shape : Shape} {l : Text} (h : Spells shape l) : l ≠ [] := by
  cases h with
  | mark hm => exact List.ne_nil_of_length_pos (markTexts_spec _ hm).1
  | lineComment _ | blockComment _ | string _ | word _ _ => simp
  | integer hb hs =>
    obtain ⟨digits, tail, ht, hd, -⟩ := hb.tail hs
    simp [ht, hd.1]
  | real hb hs =>
    obtain ⟨digits, tail, ht, hd, -⟩ := hb.tail hs
    simp [ht, hd.1]

theorem Spells.unique {shape shape' : Shape} {l : Text} (h : Spells shape l)
    (h' : Spells shape' l) : shape = shape' := by
  obtain ⟨u, r, rfl⟩ := List.exists_cons_of_ne_nil h.ne_nil
  have hfound : ∀ {s : Shape}, Spells s (u :: r) → (Shape.atFront u r).shape = s := by
    intro s hs
    obtain he | ⟨-, v, t, hv, -⟩ := hs.finds (List.append_nil _)
    · rw [he]
    · cases hv
  rw [← hfound h, ← hfound h']

end Lexical

end Seanet
