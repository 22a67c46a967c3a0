import Seanet.Tree.Printer

set_option autoImplicit false

namespace Seanet

/-- A nested list of atoms. -/
inductive SExpr where
  | atom (text : Text)
  | list (items : List SExpr)

namespace SExpr

mutual

def render : SExpr → Text
  | .atom text => text
  | .list items => listing (renders items)

def renders : List SExpr → List Text
  | [] => []
  | s :: rest => s.render :: renders rest

end

def following (items : List SExpr) : Text := items.flatMap fun s => Text.unit ' ' :: s.render

theorem render_nil : (list []).render = [Text.unit '(', Text.unit ')'] := rfl

theorem render_cons (s : SExpr) (rest : List SExpr) :
    (list (s :: rest)).render =
      Text.unit '(' :: (s.render ++ (following rest ++ [Text.unit ')'])) := by
  have hjoin : Text.join " " (s.render :: renders rest) = s.render ++ following rest := by
    induction rest generalizing s with
    | nil => simp [Text.join, renders, following]
    | cons s' rest ih =>
      have hsplit : Text.join " " (s.render :: renders (s' :: rest)) =
          s.render ++ (Text.unit ' ' :: Text.join " " (s'.render :: renders rest)) := by
        simp only [Text.join, renders, List.intercalate_cons_cons, List.append_assoc]
        rfl
      rw [hsplit, ih]
      simp [following]
  simp only [render, renders, listing, hjoin]
  change [Text.unit '('] ++ (s.render ++ following rest) ++ [Text.unit ')'] = _
  simp

end SExpr

def isDelimiter (u : UInt16) : Bool :=
  u == Text.unit ' ' || u == Text.unit '(' || u == Text.unit ')' || u == Text.unit '"'

def isPlain (t : Text) : Bool := !t.isEmpty && t.all (!isDelimiter ·)

/-- The texts that stand for themselves in a list. -/
inductive Atomic : Text → Prop where
  | plain {t : Text} (hn : t ≠ []) (h : ∀ u ∈ t, isDelimiter u = false) : Atomic t
  | quoted {t : Text} (h : Text.unit '"' ∉ t) : Atomic (Text.unit '"' :: t ++ [Text.unit '"'])

theorem atomic_of_isPlain {t : Text} (h : isPlain t = true) : Atomic t := by
  simp only [isPlain, Bool.and_eq_true, Bool.not_eq_true', List.isEmpty_eq_false_iff,
    List.all_eq_true] at h
  exact .plain h.1 h.2

def Closed (t : Text) : Prop := ∀ u ∈ t.head?, u = Text.unit ' ' ∨ u = Text.unit ')'

/-- Up to the first unit in `p` there is only one way to cut a text. -/
theorem cut_unique {p : UInt16 → Bool} {s s' r r' : Text} (hs : ∀ u ∈ s, p u = false)
    (hs' : ∀ u ∈ s', p u = false) (hr : ∀ u ∈ r.head?, p u = true)
    (hr' : ∀ u ∈ r'.head?, p u = true) (h : s ++ r = s' ++ r') : s = s' ∧ r = r' := by
  induction s generalizing s' with
  | nil =>
    cases s' with
    | nil => exact ⟨rfl, h⟩
    | cons u s' =>
      have hu := hr u (by rw [List.nil_append] at h; simp [h])
      rw [hs' u (by simp)] at hu
      cases hu
  | cons u s ih =>
    cases s' with
    | nil =>
      have hu := hr' u (by rw [List.nil_append] at h; simp [← h])
      rw [hs u (by simp)] at hu
      cases hu
    | cons u' s' =>
      rw [List.cons_append, List.cons_append] at h
      obtain ⟨rfl, htail⟩ := List.cons.inj h
      rw [List.forall_mem_cons] at hs hs'
      obtain ⟨rfl, rfl⟩ := ih hs.2 hs'.2 htail
      exact ⟨rfl, rfl⟩

theorem Closed.isDelimiter {t : Text} (h : Closed t) : ∀ u ∈ t.head?, isDelimiter u = true := by
  intro u hu
  obtain rfl | rfl := h u hu <;> rfl

theorem Atomic.head {t : Text} (h : Atomic t) : ∃ u r, t = u :: r ∧
    (u = Text.unit '"' ∨ Seanet.isDelimiter u = false) := by
  cases h with
  | plain hn h =>
    obtain ⟨u, r, rfl⟩ := List.exists_cons_of_ne_nil hn
    exact ⟨u, r, rfl, .inr (h u (by simp))⟩
  | quoted h => exact ⟨_, _, rfl, .inl rfl⟩

theorem Atomic.unique {s s' r r' : Text} (hs : Atomic s) (hs' : Atomic s') (hr : Closed r)
    (hr' : Closed r') (h : s ++ r = s' ++ r') : s = s' ∧ r = r' := by
  have hmixed : ∀ {t u : Text} {a b : Text}, t ≠ [] → (∀ v ∈ t, isDelimiter v = false) →
      t ++ a ≠ (Text.unit '"' :: u ++ [Text.unit '"']) ++ b := by
    intro t u a b hn ht he
    obtain ⟨v, t, rfl⟩ := List.exists_cons_of_ne_nil hn
    obtain ⟨rfl, -⟩ := List.cons.inj he
    exact absurd (ht _ (List.mem_cons_self)) (by decide)
  cases hs with
  | plain hn hp =>
    cases hs' with
    | plain hn' hp' => exact cut_unique hp hp' hr.isDelimiter hr'.isDelimiter h
    | quoted _ => exact absurd h (hmixed hn hp)
  | @quoted t ht =>
    cases hs' with
    | plain hn' hp' => exact absurd h.symm (hmixed hn' hp')
    | @quoted t' ht' =>
      have hinside : ∀ {x : Text}, Text.unit '"' ∉ x → ∀ u ∈ x, (u == Text.unit '"') = false := by
        intro x hx u hu
        rw [beq_eq_false_iff_ne]
        rintro rfl
        exact hx hu
      simp only [List.cons_append, List.append_assoc, List.cons.injEq, true_and] at h
      obtain ⟨rfl, hrest⟩ := cut_unique (hinside ht) (hinside ht') (by simp) (by simp) h
      exact ⟨rfl, (List.cons.inj hrest).2⟩

namespace SExpr

/-- Every atom in the list stands for itself. -/
inductive Readable : SExpr → Prop where
  | atom {t : Text} (h : Atomic t) : Readable (.atom t)
  | list {items : List SExpr} (h : ∀ s ∈ items, Readable s) : Readable (.list items)

theorem closed_following (items : List SExpr) (r : Text) :
    Closed (following items ++ Text.unit ')' :: r) := by
  intro u hu
  cases items with
  | nil =>
    obtain rfl : Text.unit ')' = u := by simpa [following] using hu
    exact .inr rfl
  | cons s items =>
    obtain rfl : Text.unit ' ' = u := by simpa [following] using hu
    exact .inl rfl

theorem render_list_append (items : List SExpr) (r : Text) : (list items).render ++ r =
    Text.unit '(' :: (match items with
      | [] => Text.unit ')' :: r
      | s :: rest => s.render ++ (following rest ++ Text.unit ')' :: r)) := by
  cases items with
  | nil => rfl
  | cons s rest => simp [render_cons]

theorem render_head {s : SExpr} (h : s.Readable) :
    ∃ u r, s.render = u :: r ∧ u ≠ Text.unit ')' := by
  cases h with
  | atom h =>
    obtain ⟨u, r, hu, hhead⟩ := h.head
    refine ⟨u, r, hu, ?_⟩
    rintro rfl
    exact absurd hhead (by decide)
  | @list items h =>
    cases items with
    | nil => exact ⟨_, _, render_nil, by decide⟩
    | cons s rest => exact ⟨_, _, render_cons s rest, by decide⟩

theorem atom_ne_list {t : Text} (h : Atomic t) (items : List SExpr) (r r' : Text) :
    t ++ r ≠ (list items).render ++ r' := by
  obtain ⟨u, s, rfl, hu⟩ := h.head
  rw [render_list_append]
  intro he
  obtain ⟨rfl, -⟩ := List.cons.inj he
  exact absurd hu (by decide)

mutual

/-- A text is that of one list only, and the list ends at one place only. -/
theorem render_unique : ∀ {s s' : SExpr} {r r' : Text}, s.Readable → s'.Readable → Closed r →
    Closed r' → s.render ++ r = s'.render ++ r' → s = s' ∧ r = r'
  | .atom t, .atom t', _, _, .atom h, .atom h', hr, hr', he => by
    obtain ⟨rfl, rfl⟩ := h.unique h' hr hr' he
    exact ⟨rfl, rfl⟩
  | .atom t, .list items, r, r', .atom h, _, _, _, he => absurd he (atom_ne_list h items r r')
  | .list items, .atom t, r, r', _, .atom h, _, _, he => absurd he.symm (atom_ne_list h items r' r)
  | .list [], .list [], r, r', _, _, _, _, he => by
    simpa [render_list_append] using he
  | .list [], .list (s :: rest), r, r', _, .list h, _, _, he => by
    obtain ⟨u, t, hu, hne⟩ := render_head (h s (by simp))
    simp only [render_list_append, hu, List.cons_append, List.cons.injEq] at he
    exact absurd he.2.1.symm hne
  | .list (s :: rest), .list [], r, r', .list h, _, _, _, he => by
    obtain ⟨u, t, hu, hne⟩ := render_head (h s (by simp))
    simp only [render_list_append, hu, List.cons_append, List.cons.injEq] at he
    exact absurd he.2.1 hne
  | .list (s :: rest), .list (s' :: rest'), r, r', .list h, .list h', _, _, he => by
    simp only [render_list_append, List.cons.injEq, true_and] at he
    rw [List.forall_mem_cons] at h h'
    obtain ⟨rfl, htail⟩ := render_unique h.1 h'.1 (closed_following rest r)
      (closed_following rest' r') he
    obtain ⟨rfl, rfl⟩ := following_unique h.2 h'.2 htail
    exact ⟨rfl, rfl⟩

theorem following_unique : ∀ {items items' : List SExpr} {r r' : Text},
    (∀ s ∈ items, s.Readable) → (∀ s ∈ items', s.Readable) →
    following items ++ Text.unit ')' :: r = following items' ++ Text.unit ')' :: r' →
    items = items' ∧ r = r'
  | [], [], _, _, _, _, he => by simpa [following] using he
  | [], s :: rest, _, _, _, _, he => by
    exact absurd (List.cons.inj he).1 (by decide)
  | s :: rest, [], _, _, _, _, he => by
    exact absurd (List.cons.inj he).1 (by decide)
  | s :: rest, s' :: rest', r, r', h, h', he => by
    rw [List.forall_mem_cons] at h h'
    have hcons : s.render ++ (following rest ++ Text.unit ')' :: r) =
        s'.render ++ (following rest' ++ Text.unit ')' :: r') := by
      simpa [following] using he
    obtain ⟨rfl, htail⟩ := render_unique h.1 h'.1 (closed_following rest r)
      (closed_following rest' r') hcons
    obtain ⟨rfl, rfl⟩ := following_unique h.2 h'.2 htail
    exact ⟨rfl, rfl⟩

end

theorem render_inj {s s' : SExpr} (h : s.Readable) (h' : s'.Readable)
    (he : s.render = s'.render) : s = s' := by
  have hclosed : Closed [] := by simp [Closed]
  refine (render_unique h h' hclosed hclosed ?_).1
  rw [he]

end SExpr

end Seanet
