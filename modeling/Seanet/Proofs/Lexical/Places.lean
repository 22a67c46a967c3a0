import Seanet.Proofs.Lexical.Lossless

set_option autoImplicit false

namespace Seanet

def Location.Before (a b : Location) : Prop :=
  a.line < b.line ∨ (a.line = b.line ∧ a.column < b.column)

theorem Location.Before.trans {a b c : Location} (h : a.Before b) (h' : b.Before c) :
    a.Before c := by
  unfold Location.Before at *
  omega

theorem Location.Before.ne {a b : Location} (h : a.Before b) : a ≠ b := by
  rintro rfl
  unfold Location.Before at h
  omega

namespace Place

theorem next_before (p : Place) (u : UInt16) : p.location.Before (p.next u).location := by
  unfold next
  split
  · exact .inl (by simp only [location]; omega)
  · exact .inr ⟨rfl, by simp only [location]; omega⟩

theorem after_before (p : Place) {t : Text} (h : t ≠ []) :
    p.location.Before (p.after t).location := by
  induction t generalizing p with
  | nil => exact absurd rfl h
  | cons u t ih =>
    change p.location.Before ((p.next u).after t).location
    by_cases ht : t = []
    · subst ht
      exact next_before p u
    · exact (next_before p u).trans (ih (p.next u) ht)

end Place

theorem Segment.lexeme_ne_nil {text : Text} {s : Segment} (h : s ∈ Segment.ofText text) :
    s.lexeme ≠ [] := by
  fun_induction Segment.ofText text with
  | case1 => simp at h
  | case2 u r ih =>
    obtain rfl | h := List.mem_cons.1 h
    · simp [Segment.atFront]
    · exact ih h

theorem placed_from {p : Place} {segments : List Segment} (hs : ∀ s ∈ segments, s.lexeme ≠ [])
    {x : Place × Segment} (hx : x ∈ placed p segments) :
    x.1 = p ∨ p.location.Before x.1.location := by
  induction segments generalizing p with
  | nil => simp [placed] at hx
  | cons s segments ih =>
    rw [List.forall_mem_cons] at hs
    obtain rfl | hx := List.mem_cons.1 hx
    · exact .inl rfl
    · have hafter := p.after_before hs.1
      obtain hp | hp := ih hs.2 hx
      · exact .inr (hp ▸ hafter)
      · exact .inr (hafter.trans hp)

theorem placed_pairwise (p : Place) {segments : List Segment}
    (hs : ∀ s ∈ segments, s.lexeme ≠ []) :
    (placed p segments).Pairwise fun x y => x.1.location.Before y.1.location := by
  induction segments generalizing p with
  | nil => exact .nil
  | cons s segments ih =>
    rw [List.forall_mem_cons] at hs
    refine .cons (fun x hx => ?_) (ih _ hs.2)
    have hafter := p.after_before hs.1
    obtain hp | hp := placed_from hs.2 hx
    · exact hp ▸ hafter
    · exact hafter.trans hp

namespace Source

theorem report?_place {source : Source} {p : Place} {s : Segment} {r : Report}
    (h : s.report? source p = some r) : r.place = p.location := by
  unfold Segment.report? at h
  split at h
  · rw [← Option.some.inj h]
  · cases h

theorem scan_reports_pairwise (source : Source) :
    source.scan.reports.Pairwise fun r r' => r.place.Before r'.place := by
  refine (placed_pairwise .start fun _ => Segment.lexeme_ne_nil).filterMap _ ?_
  intro x y hxy r hr r' hr'
  rw [report?_place hr, report?_place hr']
  exact hxy

end Source

end Seanet
