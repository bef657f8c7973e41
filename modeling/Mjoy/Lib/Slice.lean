import Mathlib.Data.List.TakeDrop

/-!
Go's `copy(dst[start:], src)` on a slice kept as a list: the elements of `dst` from `start` on
are replaced by as many of `src` as fit, and the length stays. A `start` past the end of `dst`
is a panic of the slice expression, which callers check before.
-/

namespace Slice

variable {α : Type}

/-- `copy(dst[start:], src)`, with `dst` as it stands after the copy. -/
def copyFrom (dst : List α) (start : Nat) (src : List α) : List α :=
  dst.take start ++ (src.take (dst.length - start) ++ dst.drop (start + src.length))

-- Equation lemmas of the definitions above, made once here rather than by the proofs below
-- that unfold them in parallel.
section
attribute [local simp] copyFrom
end

theorem length_copyFrom {dst : List α} {start : Nat} (src : List α) (inside : start ≤ dst.length) :
    (copyFrom dst start src).length = dst.length := by
  simp only [copyFrom, List.length_append, List.length_take, List.length_drop]
  omega

/-- Slot `i` after the copy: from `src` where the copy reached it, else as it was. -/
theorem getElem?_copyFrom {dst : List α} {start : Nat} (src : List α) (inside : start ≤ dst.length)
    (i : Nat) :
    (copyFrom dst start src)[i]? =
      if start ≤ i ∧ i < start + src.length ∧ i < dst.length then src[i - start]? else dst[i]? := by
  unfold copyFrom
  by_cases before : i < start
  · rw [List.getElem?_append_left (by simp; omega), List.getElem?_take_of_lt before, if_neg (by omega)]
  · have taken : (dst.take start).length = start := by simp; omega
    rw [List.getElem?_append_right (by omega), taken]
    by_cases copied : i < start + src.length ∧ i < dst.length
    · rw [if_pos ⟨by omega, copied⟩, List.getElem?_append_left (by simp; omega),
        List.getElem?_take_of_lt (by omega)]
    · rw [if_neg (by omega)]
      have width : (src.take (dst.length - start)).length = min (dst.length - start) src.length :=
        List.length_take
      rw [List.getElem?_append_right (by omega), width, List.getElem?_drop]
      by_cases past : dst.length ≤ i
      · -- past the end both sides read nothing
        rw [List.getElem?_eq_none past, List.getElem?_eq_none (by omega)]
      · congr 1
        omega

end Slice
