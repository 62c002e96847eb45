/-
  BubbleStorm.Lib.Span — where a piece of a list lies in it.

  `At w o d` says that `d` lies at position `o` of `w`. Pieces are cut (`take`, `drop`)
  and joined (`append`) at their positions, and stay where they are as the list grows
  (`mono`). A piece at the end of a prefix extends it (`take_add`).
-/

import Mathlib.Data.List.Basic

namespace Span

variable {α : Type}

def At (w : List α) (o : Int) (d : List α) : Prop := ∃ pre post, w = pre ++ d ++ post ∧ (pre.length : Int) = o

variable {w d e : List α} {o : Int}

theorem At.nonneg (h : At w o d) : 0 ≤ o := by
  obtain ⟨pre, post, -, rfl⟩ := h; exact Int.natCast_nonneg _

theorem At.le (h : At w o d) : o + d.length ≤ w.length := by
  obtain ⟨pre, post, rfl, rfl⟩ := h
  simp only [List.length_append]; omega

theorem at_nil (h0 : 0 ≤ o) (h : o ≤ w.length) : At w o [] :=
  ⟨w.take o.toNat, w.drop o.toNat, by simp, by simp only [List.length_take]; omega⟩

theorem at_end (w d : List α) : At (w ++ d) w.length d := ⟨w, [], by simp, rfl⟩

theorem At.mono {w' : List α} (h : At w o d) (hw : w <+: w') : At w' o d := by
  obtain ⟨pre, post, rfl, rfl⟩ := h
  obtain ⟨t, rfl⟩ := hw
  exact ⟨pre, post ++ t, by simp, rfl⟩

theorem At.take (h : At w o d) (n : Nat) : At w o (d.take n) := by
  obtain ⟨pre, post, rfl, rfl⟩ := h
  refine ⟨pre, d.drop n ++ post, ?_, rfl⟩
  conv => lhs; rw [← List.take_append_drop n d]
  simp only [List.append_assoc]

theorem At.drop (h : At w o d) {n : Nat} (hn : n ≤ d.length) : At w (o + n) (d.drop n) := by
  obtain ⟨pre, post, rfl, rfl⟩ := h
  refine ⟨pre ++ d.take n, post, ?_, ?_⟩
  · simp
  · simp only [List.length_append, List.length_take]; omega

/-- A piece of a list is one of any prefix that reaches its end. -/
theorem At.within (h : At w o d) {n : Nat} (hn : o + d.length ≤ n) : At (w.take n) o d := by
  obtain ⟨pre, post, rfl, rfl⟩ := h
  refine ⟨pre, post.take (n - (pre ++ d).length), ?_, rfl⟩
  rw [List.take_append, List.take_of_length_le (by simp only [List.length_append]; omega)]

theorem At.suffix (h : At w o d) : w.drop o.toNat = d ++ w.drop (o + d.length).toNat := by
  obtain ⟨pre, post, rfl, rfl⟩ := h
  have e : ((pre.length : Int) + d.length).toNat = (pre ++ d).length := by simp only [List.length_append]; omega
  rw [e, List.drop_left, List.append_assoc, Int.toNat_natCast, List.drop_left]

theorem at_of_prefix (h0 : 0 ≤ o) (ho : o ≤ w.length) (h : d <+: w.drop o.toNat) : At w o d := by
  obtain ⟨post, hp⟩ := h
  exact ⟨w.take o.toNat, post, by rw [List.append_assoc, hp, List.take_append_drop],
    by simp only [List.length_take]; omega⟩

theorem At.append (h : At w o d) (h' : At w (o + d.length) e) : At w o (d ++ e) := by
  have := h.le
  refine at_of_prefix h.nonneg (by omega) ⟨w.drop (o + d.length + e.length).toNat, ?_⟩
  rw [h.suffix, h'.suffix, List.append_assoc]

/-- A piece that lies at the end of a prefix extends the prefix. -/
theorem At.take_add (h : At w o d) : w.take (o + d.length).toNat = w.take o.toNat ++ d := by
  obtain ⟨pre, post, rfl, rfl⟩ := h
  have e : ((pre.length : Int) + d.length).toNat = (pre ++ d).length := by simp only [List.length_append]; omega
  rw [e, List.take_left, Int.toNat_natCast, List.append_assoc, List.take_left]

end Span
