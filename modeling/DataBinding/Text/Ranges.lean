namespace DataBinding.Text

abbrev Ranges := List (Nat × Nat)

namespace Ranges

def contains (n : Nat) : Ranges → Bool
  | [] => false
  | (low, high) :: rest => low ≤ n && (n ≤ high || contains n rest)

def ascending : Ranges → Bool
  | [] => true
  | [(low, high)] => low ≤ high
  | (low, high) :: (low', high') :: rest => low ≤ high && high < low' && ascending ((low', high') :: rest)

theorem ascending_tail {low high : Nat} {rest : Ranges} (h : ascending ((low, high) :: rest) = true) :
    ascending rest = true := by
  cases rest with
  | nil => rfl
  | cons r rest => simp only [ascending, Bool.and_eq_true] at h; exact h.2

theorem below_of_ascending {low high : Nat} {rest : Ranges} (h : ascending ((low, high) :: rest) = true) :
    ∀ r ∈ rest, low < r.1 := by
  induction rest generalizing low high with
  | nil => simp
  | cons s rest ih =>
    obtain ⟨low', high'⟩ := s
    simp only [ascending, Bool.and_eq_true, decide_eq_true_eq] at h
    intro r hr
    rcases List.mem_cons.1 hr with rfl | hr
    · simp only; omega
    · have := ih h.2 r hr; omega

theorem contains_iff {ranges : Ranges} (h : ranges.ascending = true) (n : Nat) :
    ranges.contains n = true ↔ ∃ r ∈ ranges, r.1 ≤ n ∧ n ≤ r.2 := by
  induction ranges with
  | nil => simp [contains]
  | cons s rest ih =>
    obtain ⟨low, high⟩ := s
    have hb := below_of_ascending h
    simp only [contains, Bool.and_eq_true, Bool.or_eq_true, decide_eq_true_eq, ih (ascending_tail h),
      List.mem_cons, exists_eq_or_imp]
    constructor
    · rintro ⟨hl, hh | hr⟩
      · exact .inl ⟨hl, hh⟩
      · exact .inr hr
    · rintro (⟨hl, hh⟩ | ⟨r, hr, hn⟩)
      · exact ⟨hl, .inl hh⟩
      · have := hb r hr
        exact ⟨by omega, .inr ⟨r, hr, hn⟩⟩

end Ranges

end DataBinding.Text
