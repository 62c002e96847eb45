/-
  BubbleStorm.Cusp.Stream.SegmentFormat — `parse` and `write` on a packet's bytes
  (cusp/stream/packet-format.sml).

  Both are given the slice from the header on, and neither says how much of it is the
  header: `write` overwrites the first word (`writeSlice`), and `parse` depends on no
  other byte (`parse_first`), so what is read is what is written. Proved: `parse` undoes
  `write`, whatever lies behind the header, and `write` undoes `parse` on every header
  `write` can produce, so that no two segments share one (`segment_format`).
-/

import BubbleStorm.Cusp.Stream.PacketFormat

namespace BubbleStorm.Cusp.Stream

/-- `Serial.word32b`'s `writeSlice`. -/
def writeSlice (s : Slice) (w : Nat) : Except Exn Slice :=
  if s.base % 4 ≠ 0 then .error .badAlignment
  else if s.length < 4 then .error .subscript
  else .ok ⟨s.base, toBe32 w ++ s.bytes.drop 4⟩

namespace PacketFormat

/-- `write` on a slice: the header replaces its first word. -/
def writeTo (data : Slice) (s : Segment) : Except Exn Slice := do writeSlice data (← toWord s)

/-- The ids and services of segments are 16-bit words. -/
def Word16Ids : Segment → Prop
  | .reader _ id => id < 2 ^ 16
  | .writer _ id _ => id < 2 ^ 16
  | .connect service _ => service < 2 ^ 16
  | .corrupt => True

/-- `write` raises on a length, a sequence number and a kind it has no bits for. -/
theorem toWord_ok_iff {s : Segment} (hs : Word16Ids s) : (∃ w, toWord s = .ok w) ↔ Valid s := by
  rcases s with ⟨⟨eof, offset, length⟩ | _, id⟩ | ⟨_ | _, id, seq⟩ | ⟨service, seq⟩ | _
  all_goals simp only [Word16Ids, Nat.reducePow] at hs
  · by_cases h : 4096 ≤ length
    · simp [toWord, Valid, h]
    · simp [toWord, Valid, h, hs, Nat.lt_of_not_le h]
  · simp [toWord, Valid, hs]
  all_goals first
  | simp [toWord, Valid]
    done
  | by_cases h : 16 ≤ seq
    · simp [toWord, Valid, h]
    · simp [toWord, Valid, h, hs, Nat.lt_of_not_le h]

/-- `parse` reads the first word and nothing else. -/
theorem parse_first (base w : Nat) (rest : Bytes) (hb : base % 4 = 0) (hw : w < 2 ^ 32) :
    parse ⟨base, toBe32 w ++ rest⟩ = .ok (ofWord w) := by
  have hne : ¬ (⟨base, toBe32 w ++ rest⟩ : Slice).length = 0 := by
    simp [Slice.length]
  have hlen : ¬ (⟨base, toBe32 w ++ rest⟩ : Slice).length < 4 := by
    simp [Slice.length]
  unfold parse parseSlice
  rw [if_neg hne, if_neg (by simpa using hb), if_neg hlen]
  simp only [bind, Except.bind, pure, Except.pure, be32_toBe32 w rest hw]

/-- A valid segment goes to the slice as one word, which announces it. -/
theorem writeTo_valid {data : Slice} {s : Segment} (hs : Valid s) (hb : data.base % 4 = 0) (hl : 4 ≤ data.length) :
    ∃ w < 2 ^ 32, write s = .ok (toBe32 w) ∧ writeTo data s = .ok ⟨data.base, toBe32 w ++ data.bytes.drop 4⟩ ∧
      ofWord w = s := by
  obtain ⟨w, hw, hword, hof⟩ := ofWord_toWord hs
  refine ⟨w, hw, ?_, ?_, hof⟩
  · simp only [write, hword, bind, Except.bind, pure, Except.pure]
  · have hlen : ¬ data.length < 4 := by omega
    simp only [writeTo, hword, bind, Except.bind, writeSlice, hb, hlen, ne_eq, not_true, if_false]

theorem toBe32_injective {v w : Nat} (hv : v < 2 ^ 32) (hw : w < 2 ^ 32) (h : toBe32 v = toBe32 w) : v = w := by
  have h' := congrArg be32 h
  have hv' := be32_toBe32 v [] hv
  have hw' := be32_toBe32 w [] hw
  rw [List.append_nil] at hv' hw'
  rw [← hv', ← hw', h']

/-- What `write` accepts is valid, and a valid segment has a header of its own. -/
theorem write_ok {s : Segment} {header : Bytes} (hs : Word16Ids s) (h : write s = .ok header) :
    ∃ w < 2 ^ 32, header = toBe32 w ∧ ofWord w = s := by
  obtain ⟨w, hword, hw⟩ := bind_ok h
  cases hw
  obtain ⟨w', hlt, hword', hof⟩ := ofWord_toWord ((toWord_ok_iff hs).mp ⟨w, hword⟩)
  rw [hword, Except.ok.injEq] at hword'
  exact ⟨w, hword' ▸ hlt, rfl, hword' ▸ hof⟩

/-- A header that is cut short is not parsed as what it was. -/
theorem parse_cut {base w k : Nat} {s : Segment} (hs : Valid s) (hk : k < 4) :
    parse ⟨base, (toBe32 w).take k⟩ ≠ .ok s := by
  intro h
  unfold parse at h
  split at h
  · cases h
    exact hs
  · obtain ⟨v, hv, -⟩ := bind_ok h
    unfold parseSlice at hv
    split at hv
    · cases hv
    · rw [if_pos (by simp [Slice.length]; omega)] at hv
      cases hv

/-- Four bytes are written and the same four are read: `parse` gives the segment back
    whatever follows them and not from fewer, `write` gives every header it can write
    back, and a header has one segment. -/
theorem segment_format :
    (∀ s data, Valid s → data.base % 4 = 0 → 4 ≤ data.length →
        ∃ header, header.length = 4 ∧ write s = .ok header ∧
          writeTo data s = .ok ⟨data.base, header ++ data.bytes.drop 4⟩ ∧
          (∀ rest, parse ⟨data.base, header ++ rest⟩ = .ok s) ∧
          ∀ k < 4, parse ⟨data.base, header.take k⟩ ≠ .ok s) ∧
      (∀ s header, Word16Ids s → write s = .ok header → ∀ base rest, base % 4 = 0 →
        ∃ s', parse ⟨base, header ++ rest⟩ = .ok s' ∧ write s' = .ok header) ∧
      ∀ s s' header, Word16Ids s → Word16Ids s' → write s = .ok header → write s' = .ok header → s = s' := by
  refine ⟨fun s data hs hb hl => ?_, fun s header hs hh base rest hb => ?_, fun s s' header hs hs' hh hh' => ?_⟩
  · obtain ⟨w, hw, h1, h2, hof⟩ := writeTo_valid hs hb hl
    refine ⟨toBe32 w, rfl, h1, h2, fun rest => ?_, fun k hk => parse_cut hs hk⟩
    rw [parse_first data.base w rest hb hw, hof]
  · obtain ⟨w, hw, rfl, hof⟩ := write_ok hs hh
    refine ⟨s, ?_, hh⟩
    rw [parse_first base w rest hb hw, hof]
  · obtain ⟨w, hw, rfl, hof⟩ := write_ok hs hh
    obtain ⟨w', hw', he, hof'⟩ := write_ok hs' hh'
    rw [← hof, ← hof', toBe32_injective hw hw' he]

end PacketFormat

end BubbleStorm.Cusp.Stream
