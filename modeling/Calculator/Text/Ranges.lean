/-!
Sets of characters written as ascending ranges of code points. Main statement: the search finds
exactly the numbers that lie in a range.
-/

namespace Calculator.Text

/-- Search in ascending ranges: it ends at the first range that starts above `n`. -/
def within (n : Nat) : List (Nat × Nat) → Bool
  | [] => false
  | (low, high) :: rest =>
    if n < low then false else if n ≤ high then true else within n rest

/-- Each range starts above the end of the one before it. -/
def ascending : List (Nat × Nat) → Bool
  | [] => true
  | [(low, high)] => low ≤ high
  | (low, high) :: next :: rest => low ≤ high && high < next.1 && ascending (next :: rest)

theorem ascending_tail {r : Nat × Nat} {rest : List (Nat × Nat)}
    (h : ascending (r :: rest) = true) : ascending rest = true := by
  cases rest with
  | nil => rfl
  | cons next rest =>
    simp only [ascending, Bool.and_eq_true] at h
    exact h.2

theorem lt_of_ascending {r s : Nat × Nat} {rest : List (Nat × Nat)}
    (h : ascending (r :: rest) = true) (hs : s ∈ rest) : r.2 < s.1 := by
  induction rest generalizing r with
  | nil => contradiction
  | cons next rest ih =>
    simp only [ascending, Bool.and_eq_true, decide_eq_true_eq] at h
    rcases List.mem_cons.mp hs with hs | hs
    · exact hs ▸ h.1.2
    · have later := ih h.2 hs
      have order : next.1 ≤ next.2 := by
        cases rest with
        | nil => simpa [ascending] using h.2
        | cons third rest =>
          simp only [ascending, Bool.and_eq_true, decide_eq_true_eq] at h
          exact h.2.1.1
      omega

theorem within_iff {n : Nat} {ranges : List (Nat × Nat)} (h : ascending ranges = true) :
    within n ranges = true ↔ ∃ r ∈ ranges, r.1 ≤ n ∧ n ≤ r.2 := by
  induction ranges with
  | nil => simp [within]
  | cons r rest ih =>
    obtain ⟨low, high⟩ := r
    have order : low ≤ high := by
      cases rest with
      | nil => simpa [ascending] using h
      | cons next rest =>
        simp only [ascending, Bool.and_eq_true, decide_eq_true_eq] at h
        exact h.1.1
    simp only [within, List.mem_cons, exists_eq_or_imp]
    split
    · constructor
      · intro impossible
        contradiction
      · rintro (here | ⟨s, hs, later⟩)
        · omega
        · have := lt_of_ascending h hs
          simp only at this
          omega
    · split
      · simp only [true_iff]
        exact Or.inl (by omega)
      · rw [ih (ascending_tail h)]
        constructor
        · exact Or.inr
        · rintro (here | found)
          · omega
          · exact found

end Calculator.Text
