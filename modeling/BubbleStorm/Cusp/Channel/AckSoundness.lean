/-
  BubbleStorm.Cusp.Channel.AckSoundness — what the mask says about the packets taken
  (`src/cusp/channel/delayed-ack.fun`).

  Packets are numbered without wrap-around; `recv` sees the word of a number. Bit `i` of
  the mask is the packet `i` before the newest one taken (`Marks`), as long as no packet
  is half the number space away from it.
-/

import Mathlib.Data.Nat.Bitwise
import BubbleStorm.Cusp.Channel.DelayedAck

namespace BubbleStorm.Cusp.Channel.DelayedAck

open BubbleStorm.Cusp.Stream

/-! ## The number of packets in a row -/

/-- The lowest bit that is not set, on its own. -/
theorem lowest_unset (k q : Nat) (hk : k < 16) (mask : BitVec 16) (h : mask.toNat = 2 ^ (k + 1) * q + (2 ^ k - 1)) :
    ~~~mask &&& (mask + 1) = BitVec.twoPow 16 k := by
  have hpow : 2 ^ (k + 1) = 2 ^ k + 2 ^ k := by rw [Nat.pow_succ]; omega
  have hpos : 0 < 2 ^ k := Nat.two_pow_pos k
  have hsucc : (mask + 1).toNat = 2 ^ (k + 1) * q + 2 ^ k := by
    have hlt := mask.isLt
    have hne : mask.toNat + 1 ≠ 2 ^ 16 := by
      intro he
      -- all sixteen bits set leave no bit unset
      have hdvd : 2 ^ (k + 1) ∣ 2 ^ 16 := Nat.pow_dvd_pow 2 (by omega)
      obtain ⟨c, hc⟩ := hdvd
      have hle : q < c := by
        by_contra hge
        have hmul := Nat.mul_le_mul_left (2 ^ (k + 1)) (Nat.le_of_not_lt hge)
        omega
      have hmul := Nat.mul_le_mul_left (2 ^ (k + 1)) (Nat.succ_le_of_lt hle)
      rw [Nat.mul_succ] at hmul
      omega
    rw [BitVec.toNat_add, show (1 : BitVec 16).toNat = 1 from rfl, Nat.mod_eq_of_lt (by omega)]
    omega
  apply BitVec.eq_of_getLsbD_eq
  intro i hi
  have h1 : mask.getLsbD i = if i < k + 1 then decide (i < k) else q.testBit (i - (k + 1)) := by
    rw [BitVec.getLsbD, h, Nat.testBit_two_pow_mul_add q (by omega), Nat.testBit_two_pow_sub_one]
  have h2 : (mask + 1).getLsbD i = if i < k + 1 then decide (k = i) else q.testBit (i - (k + 1)) := by
    rw [BitVec.getLsbD, hsucc, Nat.testBit_two_pow_mul_add q (by omega), Nat.testBit_two_pow]
  rw [BitVec.getLsbD_and, BitVec.getLsbD_not, BitVec.getLsbD_twoPow, h1, h2]
  split
  · by_cases hik : k = i
    · simp [hik, hi]
    · simp [hik]
  · have hne : k ≠ i := by omega
    simp [hne, hi]

/-- The low bits that are set end somewhere. -/
theorem trailing_ones (n : Nat) (h : n < 2 ^ 16) : n = 2 ^ 16 - 1 ∨ ∃ k < 16, ∃ q, n = 2 ^ (k + 1) * q + (2 ^ k - 1) := by
  have go : ∀ m : Nat, ∀ n < 2 ^ m, n = 2 ^ m - 1 ∨ ∃ k < m, ∃ q, n = 2 ^ (k + 1) * q + (2 ^ k - 1) := by
    intro m
    induction m with
    | zero =>
      intro n hn
      exact .inl (by omega)
    | succ m ih =>
      intro n hn
      rcases Nat.even_or_odd' n with ⟨c, hc | hc⟩
      · exact .inr ⟨0, by omega, c, by omega⟩
      · rw [Nat.pow_succ] at hn
        rcases ih c (by omega) with hall | ⟨k, hk, q, hq⟩
        · refine .inl ?_
          rw [Nat.pow_succ]
          omega
        · refine .inr ⟨k + 1, by omega, q, ?_⟩
          have hpos : 0 < 2 ^ k := Nat.two_pow_pos k
          have hpow : 2 ^ (k + 1) = 2 * 2 ^ k := Nat.pow_succ'
          have hmul : 2 ^ (k + 1 + 1) * q = 2 * (2 ^ (k + 1) * q) := by rw [Nat.pow_succ', Nat.mul_assoc]
          omega
  exact go 16 n h

/-- The table turns the lowest unset bit into its index. -/
theorem deBruijn (k : Nat) (h0 : 0 < k) (hk : k < 16) :
    deBruijnTable.getD ((0x0f2d#16 * BitVec.twoPow 16 k) >>> 12).toNat 0 = k := by
  have all : ∀ k < 16, 0 < k → deBruijnTable.getD ((0x0f2d#16 * BitVec.twoPow 16 k) >>> 12).toNat 0 = k := by decide
  exact all k hk h0

/-- Where the newest packet is marked, `ackCount` counts marked packets only. -/
theorem ackCount_spec (mask : BitVec 16) (h : mask.getLsbD 0 = true) :
    0 < ackCount mask ∧ ackCount mask ≤ 16 ∧ ∀ i < ackCount mask, mask.getLsbD i = true := by
  rcases trailing_ones mask.toNat mask.isLt with hall | ⟨k, hk, q, hq⟩
  · have he : mask = BitVec.allOnes 16 := BitVec.eq_of_toNat_eq hall
    rw [he]
    exact ⟨by decide, by decide, by decide⟩
  · have h0 : 0 < k := by
      rw [Nat.pos_iff_ne_zero]
      intro same
      subst same
      rw [BitVec.getLsbD, hq, Nat.testBit_two_pow_mul_add q (by decide), if_pos (by decide)] at h
      exact absurd h (by decide)
    have hc : ackCount mask = k := by
      unfold ackCount
      rw [lowest_unset k q hk mask hq]
      exact deBruijn k h0 hk
    rw [hc]
    refine ⟨h0, by omega, fun i hi => ?_⟩
    have hpos : 0 < 2 ^ k := Nat.two_pow_pos k
    have hpow : 2 ^ (k + 1) = 2 ^ k + 2 ^ k := by rw [Nat.pow_succ]; omega
    rw [BitVec.getLsbD, hq, Nat.testBit_two_pow_mul_add q (by omega), if_pos (by omega), Nat.testBit_two_pow_sub_one]
    exact decide_eq_true hi

/-! ## Runs -/

structure St where
  ack : T
  /-- The packets the layer above has taken, the latest first. -/
  taken : List Int
  /-- The ranges acknowledged, from `asn - acklen` to `asn`. -/
  acked : List (Int × Nat)

inductive Ev where
  /-- Packet `p` arrives; `ok` is what the layer above answers if it is handed to it. -/
  | recv (p : Int) (empty ok : Bool)
  | pull

def start : St := ⟨new, [], []⟩

def step (s : St) : Ev → St
  | .recv p empty ok =>
    let (t, taken) := recv s.ack (fun taken => (if ok then p :: taken else taken, ok)) s.taken empty (word32 p)
    { s with ack := t, taken := taken }
  | .pull =>
    let (t, asn, acklen) := pull s.ack
    { s with ack := t, acked := (asn, acklen) :: s.acked }

/-- The newest packet taken. No packet has number zero: it stands for the handshake. -/
def newest (s : St) : Int := s.taken.foldr max 0

/-- Taken, or the handshake. -/
def Has (s : St) (p : Int) : Prop := p = 0 ∨ p ∈ s.taken

/-- Packets arrive less than half the number space behind or ahead of the newest one. -/
def Near (s : St) : Ev → Prop
  | .recv p _ _ => -2 ^ 31 < p - newest s ∧ p - newest s < 2 ^ 31
  | .pull => True

instance (s : St) : (e : Ev) → Decidable (Near s e)
  | .recv p _ _ => inferInstanceAs (Decidable (-2 ^ 31 < p - newest s ∧ p - newest s < 2 ^ 31))
  | .pull => inferInstanceAs (Decidable True)

inductive Reach : St → Prop
  | start : Reach start
  | step {s : St} (e : Ev) : Reach s → Near s e → Reach (step s e)

/-- An acknowledgement whose mask marks packets that are there. -/
structure Marks (s : St) (a : Ack) (n : Int) : Prop where
  rasn : a.rasn = word32 n
  self : a.mask.getLsbD 0 = true
  mask : ∀ i < 16, a.mask.getLsbD i = true → Has s (n - i)

structure Inv (s : St) : Prop where
  rasn : s.ack.new.rasn = word32 (newest s)
  mask : ∀ i < 16, s.ack.new.mask.getLsbD i = true ↔ Has s (newest s - i)
  once : s.taken.Nodup
  fresh : 0 ∉ s.taken
  oop : ∀ a, s.ack.oop = some a → ∃ n, Marks s a n
  acked : ∀ r ∈ s.acked, ∃ n, r.1 = word32 n ∧ ∀ i ≤ r.2, Has s (n - i)

variable {s : St}

theorem newest_nonneg (s : St) : 0 ≤ newest s := by
  unfold newest
  generalize s.taken = l
  induction l with
  | nil => exact Int.le_refl 0
  | cons p l ih => exact Int.le_trans ih (Int.le_max_right p _)

theorem le_newest {p : Int} (h : Has s p) : p ≤ newest s := by
  rcases h with rfl | h
  · exact newest_nonneg s
  · unfold newest
    generalize s.taken = l at h
    induction h with
    | head l => exact Int.le_max_left _ _
    | tail x _ ih => exact Int.le_trans ih (Int.le_max_right x _)

theorem has_newest (s : St) : Has s (newest s) := by
  unfold newest Has
  generalize s.taken = l
  induction l with
  | nil => exact .inl rfl
  | cons p l ih =>
    rw [List.foldr_cons]
    rcases Int.le_total p (l.foldr max 0) with h | h
    · rw [Int.max_eq_right h]
      exact ih.imp_right (.tail p)
    · rw [Int.max_eq_left h]
      exact .inr (.head l)

theorem inv_start : Inv start where
  rasn := rfl
  mask i hi := by
    have hbit : start.ack.new.mask.getLsbD i = decide (i = 0) := by
      show (1#16).getLsbD i = decide (i = 0)
      rw [BitVec.getLsbD_one]
      simp
    rw [hbit]
    simp [Has, newest, start]
  once := List.nodup_nil
  fresh := List.not_mem_nil
  oop _ h := by cases h
  acked _ h := by cases h

/-! ## What a packet does -/

theorem lt_words {a b : Int} : Key.lt (word32 a) (word32 b) = Key.lt a b := by
  simp only [Key.lt_def, word32, ← Int.sub_emod]

/-- The newest packet yet: the mask moves on. -/
def St.ahead (s : St) (p : Int) : St :=
  { s with ack := { s.ack with new := ⟨1#16 ||| s.ack.new.mask <<< (p - newest s).toNat, word32 p⟩ },
           taken := p :: s.taken }

/-- The mask with a packet behind the newest one. -/
def St.mark (s : St) (p : Int) : BitVec 16 := s.ack.new.mask ||| 1#16 <<< (newest s - p).toNat

def St.behind (s : St) (p : Int) (oop : Option Ack) : St :=
  { s with ack := ⟨⟨s.mark p, s.ack.new.rasn⟩, oop⟩, taken := p :: s.taken }

theorem recv_step_cases (hr : s.ack.new.rasn = word32 (newest s)) {p : Int} (h1 : -2 ^ 31 < p - newest s)
    (h2 : p - newest s < 2 ^ 31) (empty ok : Bool) :
    step s (.recv p empty ok) = s ∨
    (newest s < p ∧ step s (.recv p empty ok) = s.ahead p) ∨
    (p ≤ newest s ∧ newest s - p < 16 ∧ s.ack.new.mask ≠ s.mark p ∧ ∃ oop, step s (.recv p empty ok) = s.behind p oop ∧
      (oop = s.ack.oop ∨ oop = some ⟨s.mark p >>> (newest s - p).toNat, word32 p⟩)) := by
  have hsub : word32 (word32 p - word32 (newest s)) = p - newest s ∨ p ≤ newest s := by unfold word32; omega
  have hsub' : p ≤ newest s → word32 (word32 (newest s) - word32 p) = newest s - p := by unfold word32; omega
  have hnew : Key.lt s.ack.new.rasn (word32 p) = decide (newest s < p) := by
    rw [hr, lt_words]
    by_cases h : newest s < p
    · rw [decide_eq_true h]
      exact (Key.lt_iff (by omega) (by omega)).mpr h
    · rw [decide_eq_false h]
      exact (Key.lt_false_iff (by omega) (by omega)).mpr (by omega)
  have hold : p ≤ newest s → Key.lt (s.ack.new.rasn - 16) (word32 p) = decide (newest s - 16 < p) := by
    intro hle
    have he : Key.lt (s.ack.new.rasn - 16) (word32 p) = Key.lt (newest s - 16) p := by
      rw [← lt_words (a := newest s - 16), hr]
      simp only [Key.lt_def, word32]
      congr 2
      omega
    rw [he]
    by_cases h : newest s - 16 < p
    · rw [decide_eq_true h]
      exact (Key.lt_iff (by omega) (by omega)).mpr h
    · rw [decide_eq_false h]
      exact (Key.lt_false_iff (by omega) (by omega)).mpr (by omega)
  unfold step recv
  dsimp only
  rw [hnew]
  by_cases hlt : newest s < p
  · simp only [hlt, decide_true, if_true]
    cases ok with
    | false => exact .inl rfl
    | true =>
      have hs : word32 (word32 p - s.ack.new.rasn) = p - newest s := by
        rw [hr]
        exact hsub.resolve_right (by omega)
      rw [hs]
      exact .inr (.inl ⟨trivial, rfl⟩)
  · have hle : p ≤ newest s := Int.le_of_not_gt hlt
    have hs : word32 (s.ack.new.rasn - word32 p) = newest s - p := by rw [hr]; exact hsub' hle
    rw [hold hle, hs]
    simp only [hlt, decide_false, Bool.false_eq_true, if_false]
    by_cases hwin : newest s - 16 < p
    · simp only [hwin, decide_true, Bool.not_true, Bool.false_eq_true, if_false]
      split
      · exact .inl rfl
      · rename_i hne
        cases ok with
        | false =>
          refine .inl ?_
          simp
        | true =>
          refine .inr (.inr ⟨hle, by omega, hne, _, rfl, ?_⟩)
          split
          · exact .inl rfl
          · exact .inr rfl
    · simp [hwin]

theorem Has.cons {p q : Int} (h : Has s q) (t : T) (l : List (Int × Nat)) : Has ⟨t, p :: s.taken, l⟩ q :=
  h.imp_right (.tail p)

/-- Acknowledgements stay true while more packets arrive. -/
theorem Marks.mono {s' : St} (h : ∀ q, Has s q → Has s' q) {a : Ack} {n : Int} (hm : Marks s a n) : Marks s' a n :=
  ⟨hm.rasn, hm.self, fun i hi hb => h _ (hm.mask i hi hb)⟩

theorem Inv.ahead (h : Inv s) {p : Int} (hlt : newest s < p) : Inv (s.ahead p) := by
  have hn : newest (s.ahead p) = p := Int.max_eq_left (Int.le_of_lt hlt)
  have hhas : ∀ q, Has s q → Has (s.ahead p) q := fun q hq => hq.cons _ _
  have hfresh : p ∉ s.taken := fun hm => absurd (le_newest (.inr hm)) (by omega)
  refine ⟨by rw [hn]; rfl, fun i hi => ?_, List.nodup_cons.mpr ⟨hfresh, h.once⟩, ?_, fun a ha => ?_, fun r hr => ?_⟩
  · rw [hn]
    show (1#16 ||| s.ack.new.mask <<< (p - newest s).toNat).getLsbD i = true ↔ _
    rw [BitVec.getLsbD_or, BitVec.getLsbD_one, BitVec.getLsbD_shiftLeft]
    by_cases h0 : i = 0
    · subst h0
      simp [Has, St.ahead]
    · have hdiff : p - (i : Int) ≠ p := by omega
      have hiff : Has (s.ahead p) (p - i) ↔ Has s (p - i) := by simp [Has, St.ahead, hdiff]
      rw [hiff]
      by_cases hsh : i < (p - newest s).toNat
      · -- the packets that were left out
        have hno : ¬ Has s (p - i) := fun hq => absurd (le_newest hq) (by omega)
        simp [h0, hsh, hno]
      · have hi' : i - (p - newest s).toNat < 16 := by omega
        have he : newest s - ((i - (p - newest s).toNat : Nat) : Int) = p - i := by omega
        simp [h0, hsh, hi, h.mask _ hi', he]
  · show 0 ∉ p :: s.taken
    rw [List.mem_cons, not_or]
    have := newest_nonneg s
    exact ⟨by omega, h.fresh⟩
  · obtain ⟨n, hm⟩ := h.oop a ha
    exact ⟨n, hm.mono hhas⟩
  · obtain ⟨n, he, hm⟩ := h.acked r hr
    exact ⟨n, he, fun i hi => hhas _ (hm i hi)⟩

/-- A bit that changes the mask was not set. -/
theorem unmarked {mask : BitVec 16} {d : Nat} (h : mask ≠ mask ||| 1#16 <<< d) : mask.getLsbD d = false := by
  by_contra hb
  rw [Bool.not_eq_false] at hb
  apply h
  apply BitVec.eq_of_getLsbD_eq
  intro i hi
  rw [BitVec.getLsbD_or, BitVec.getLsbD_shiftLeft, BitVec.getLsbD_one]
  by_cases hid : i = d
  · rw [hid, hb]
    rfl
  · have : ¬ (¬ i < d ∧ i - d = 0) := by omega
    by_cases hlt : i < d
    · simp [hlt]
    · simp [hlt, show i - d ≠ 0 by omega]

theorem mark_bit {p : Int} (hle : p ≤ newest s) {i : Nat} (hi : i < 16) :
    (s.mark p).getLsbD i = (s.ack.new.mask.getLsbD i || decide (newest s - i = p)) := by
  unfold St.mark
  rw [BitVec.getLsbD_or, BitVec.getLsbD_shiftLeft, BitVec.getLsbD_one]
  congr 1
  by_cases hid : newest s - i = p
  · have h1 : ¬ i < (newest s - p).toNat := by omega
    have h2 : i - (newest s - p).toNat = 0 := by omega
    simp [hi, h1, h2, hid]
  · by_cases hlt : i < (newest s - p).toNat
    · simp [hlt, hid]
    · have h2 : i - (newest s - p).toNat ≠ 0 := by omega
      simp [h2, hid]

theorem Inv.behind (h : Inv s) {p : Int} (hle : p ≤ newest s) (hd : newest s - p < 16)
    (hne : s.ack.new.mask ≠ s.mark p) {oop : Option Ack}
    (ho : oop = s.ack.oop ∨ oop = some ⟨s.mark p >>> (newest s - p).toNat, word32 p⟩) : Inv (s.behind p oop) := by
  have hn : newest (s.behind p oop) = newest s := Int.max_eq_right hle
  have hhas : ∀ q, Has s q → Has (s.behind p oop) q := fun q hq => hq.cons _ _
  have hfresh : ¬ Has s p := by
    have hbit := unmarked hne
    intro hp
    have he : newest s - ((newest s - p).toNat : Int) = p := by omega
    have := (h.mask (newest s - p).toNat (by omega)).mpr (he.symm ▸ hp)
    rw [hbit] at this
    cases this
  have hbits : ∀ i < 16, (s.mark p).getLsbD i = true ↔ Has (s.behind p oop) (newest s - i) := by
    intro i hi
    rw [mark_bit hle hi, Bool.or_eq_true, h.mask i hi, decide_eq_true_eq]
    simp only [Has, St.behind, List.mem_cons]
    tauto
  refine ⟨hn ▸ h.rasn, fun i hi => hn ▸ hbits i hi, List.nodup_cons.mpr ⟨fun hm => hfresh (.inr hm), h.once⟩, ?_,
    fun a ha => ?_, fun r hr => ?_⟩
  · show 0 ∉ p :: s.taken
    rw [List.mem_cons, not_or]
    exact ⟨fun h0 => hfresh (.inl h0.symm), h.fresh⟩
  · rcases ho with ho | ho
    · obtain ⟨n, hm⟩ := h.oop a (ho ▸ ha)
      exact ⟨n, hm.mono hhas⟩
    · -- an acknowledgement of its own, counted from this packet
      cases ho.symm.trans ha
      have hcut : ∀ i < 16, (s.mark p >>> (newest s - p).toNat).getLsbD i = true → Has (s.behind p oop) (p - i) := by
        intro i hi hb
        rw [BitVec.getLsbD_ushiftRight] at hb
        have hlt : (newest s - p).toNat + i < 16 := BitVec.lt_of_getLsbD hb
        have he : newest s - (((newest s - p).toNat + i : Nat) : Int) = p - i := by omega
        exact he ▸ (hbits _ hlt).mp hb
      refine ⟨p, rfl, ?_, hcut⟩
      show (s.mark p >>> (newest s - p).toNat).getLsbD 0 = true
      rw [BitVec.getLsbD_ushiftRight, Nat.add_zero, mark_bit hle (by omega), Bool.or_eq_true, decide_eq_true_eq]
      exact .inr (by omega)
  · obtain ⟨n, he, hm⟩ := h.acked r hr
    exact ⟨n, he, fun i hi => hhas _ (hm i hi)⟩

/-- What is acknowledged is there. -/
theorem Inv.pull (h : Inv s) : Inv (step s .pull) := by
  have hnew : Marks s s.ack.new (newest s) := by
    refine ⟨h.rasn, ?_, fun i hi => (h.mask i hi).mp⟩
    have he : newest s - ((0 : Nat) : Int) = newest s := by omega
    exact (h.mask 0 (by decide)).mpr (he.symm ▸ has_newest s)
  have hack : ∃ n, Marks s (s.ack.oop.getD s.ack.new) n := by
    cases ho : s.ack.oop with
    | none => exact ⟨_, hnew⟩
    | some a => exact h.oop a ho
  obtain ⟨n, hm⟩ := hack
  obtain ⟨hpos, hle, hrow⟩ := ackCount_spec _ hm.self
  refine ⟨h.rasn, h.mask, h.once, h.fresh, nofun, fun r hr => ?_⟩
  rcases List.mem_cons.mp hr with rfl | hr
  · exact ⟨n, hm.rasn, fun i hi => hm.mask i (by dsimp only at hi; omega) (hrow i (by dsimp only at hi; omega))⟩
  · exact h.acked r hr

theorem Inv.step (h : Inv s) {e : Ev} (hn : Near s e) : Inv (step s e) := by
  cases e with
  | recv p empty ok =>
    rcases recv_step_cases h.rasn hn.1 hn.2 empty ok with e | ⟨hlt, e⟩ | ⟨hle, hd, hne, oop, e, ho⟩
    · rw [e]
      exact h
    · rw [e]
      exact h.ahead hlt
    · rw [e]
      exact h.behind hle hd hne ho
  | pull => exact h.pull

theorem Reach.inv (h : Reach s) : Inv s := by
  induction h with
  | start => exact inv_start
  | step e _ hn ih => exact ih.step hn

end BubbleStorm.Cusp.Channel.DelayedAck
