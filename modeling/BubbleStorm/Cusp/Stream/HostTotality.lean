/-
  BubbleStorm.Cusp.Stream.HostTotality — when `recvPacket` returns.

  The walk over a packet raises at the first segment that is torn: one to three bytes,
  a READER_BARRIER without its word, a CONNECT with one to three bytes behind it. At any
  other segment a host whose tables are sound returns, and takes at least four bytes of
  those that are there, a multiple of four; so the walk ends.
-/

import BubbleStorm.Cusp.Stream.HostSound

namespace BubbleStorm.Cusp.Stream.HostDispatch

open PacketFormat (align ofWord parse)
open Function (update)
open PacketFormat (Segment Reader Writer)

variable {t t' : T} {r : Nat}

/-! ## One segment -/

/-- The bytes begin with a segment that is not all there, and that no check of a length
    stops. -/
def Torn (bytes : Bytes) : Prop :=
  if bytes.length < 4 then bytes ≠ []
  else
    match ofWord (be32 bytes) with
    | .writer .readerBarrier _ _ => bytes.length < 8
    | .connect _ _ => bytes.length ≠ 4 ∧ bytes.length < 8
    | _ => False

/-- What a segment takes: the rest of the packet is dropped, or these bytes are there. -/
def Takes (data : Slice) (n : Int) : Prop := n = -1 ∨ ∃ k : Nat, n = k ∧ 4 ≤ k ∧ k ≤ data.length ∧ k % 4 = 0

theorem parse_whole {data : Slice} (ha : data.base % 4 = 0) (h : 4 ≤ data.length) :
    parse data = .ok (ofWord (be32 data.bytes)) := by
  unfold parse parseSlice
  rw [if_neg (by omega), if_neg (by omega), if_neg (by omega)]
  rfl

theorem parser_whole {data : Slice} (ha : data.base % 4 = 0) (h : 8 ≤ data.length) : ∃ w, parser data = .ok w := by
  have h1 : ((data.bytes.drop 4).take 4).length = 4 := by
    rw [List.length_take, List.length_drop]
    exact Nat.min_eq_left (Nat.le_sub_of_add_le h)
  unfold parser Slice.subslice
  rw [if_neg (Nat.not_lt.mpr h)]
  refine ⟨be32 ((data.bytes.drop 4).take 4), ?_⟩
  show parseSlice ⟨data.base + 4, (data.bytes.drop 4).take 4⟩ = _
  unfold parseSlice
  rw [if_neg (by show ¬ (data.base + 4) % 4 ≠ 0; omega), if_neg (by show ¬ ((data.bytes.drop 4).take 4).length < 4; omega)]

theorem skipReader_takes (data : Slice) (h : 4 ≤ data.length) (msg : Reader) : Takes data (skipReader data msg) := by
  cases msg with
  | writerResets => exact .inr ⟨4, rfl, Nat.le_refl 4, h, rfl⟩
  | data eof offset length =>
    have hal := align_mod length
    unfold skipReader
    dsimp only
    cases offset with
    | true =>
      rw [if_pos rfl]
      split
      · exact .inl rfl
      · exact .inr ⟨_, rfl, by omega, by omega, by omega⟩
    | false =>
      rw [if_neg Bool.false_ne_true]
      split
      · exact .inl rfl
      · exact .inr ⟨_, rfl, by omega, by omega, by omega⟩

/-- An in-stream takes what is skipped where there is none, or drops the packet. -/
theorem recvIn_takes (q : InStreamQueue.T) {data : Slice} (ha : data.base % 4 = 0) (h : 4 ≤ data.length) (msg : Reader)
    (own : List InStreamQueue.Op) : ∃ q' n, InStreamQueue.recv q data msg own = .ok (q', n) ∧ Takes data n := by
  cases msg with
  | writerResets => exact ⟨_, _, rfl, .inr ⟨4, rfl, Nat.le_refl 4, h, rfl⟩⟩
  | data eof offset length =>
    have hal := align_mod length
    have hle := le_align length
    obtain ⟨begin, hb⟩ : ∃ begin, begin = if offset then 8 else 4 := ⟨_, rfl⟩
    unfold InStreamQueue.recv
    dsimp only
    rw [← hb]
    split
    · exact ⟨_, _, rfl, .inl rfl⟩
    · rename_i hn
      have hneed : align length + begin ≤ data.length := Nat.not_lt.mp hn
      have hbegin : 4 ≤ begin ∧ begin % 4 = 0 := by
        rw [hb]
        split
        · exact ⟨by decide, rfl⟩
        · exact ⟨Nat.le_refl 4, rfl⟩
      have hsub : ∃ d, data.subslice begin length = .ok d := by
        unfold Slice.subslice
        rw [if_neg (by omega)]
        exact ⟨_, rfl⟩
      obtain ⟨d, hd⟩ := hsub
      have htakes : ∀ ok : Bool, Takes data (if ok then ((align length + begin : Nat) : Int) else -1) := by
        intro ok
        cases ok with
        | true => exact .inr ⟨_, rfl, by omega, hneed, by omega⟩
        | false => exact .inl rfl
      cases offset with
      | true =>
        obtain ⟨w, hw⟩ := parser_whole ha (by rw [if_pos rfl] at hb; omega)
        simp only [if_true, hw, hd, bind, Except.bind, pure, Except.pure]
        exact ⟨_, _, rfl, htakes _⟩
      | false =>
        simp only [Bool.false_eq_true, if_false, hd, bind, Except.bind, pure, Except.pure]
        exact ⟨_, _, rfl, htakes _⟩

theorem recvOut_whole (q : OutStreamQueue.T) {data : Slice} (ha : data.base % 4 = 0) (msg : Writer)
    (h : msg = .readerBarrier → 8 ≤ data.length) :
    ∃ q', OutStreamQueue.recv q data msg = .ok (q', (skipWriter msg).toNat) := by
  cases msg with
  | readerResets => exact ⟨_, rfl⟩
  | readerBarrier =>
    obtain ⟨w, hw⟩ := parser_whole ha (h rfl)
    refine ⟨OutStreamQueue.makeProgress { q with barrier := w }, ?_⟩
    unfold OutStreamQueue.recv
    simp only [hw, bind, Except.bind, pure, Except.pure]
    rfl

/-- A segment that is not torn is taken. -/
theorem recvSegment_whole (h : Sound t) {data : Slice} (ha : data.base % 4 = 0) (h0 : data.bytes ≠ [])
    (hw : ¬ Torn data.bytes) (own : List InStreamQueue.Op) :
    ∃ t' n, recvSegment t data own = .ok (t', n) ∧ Takes data n := by
  unfold Torn at hw
  have h4 : ¬ data.bytes.length < 4 := fun hlt => hw (by rw [if_pos hlt]; exact h0)
  rw [if_neg h4] at hw
  have h4 : 4 ≤ data.length := Nat.not_lt.mp h4
  unfold recvSegment
  rw [parse_whole ha h4]
  cases hseg : ofWord (be32 data.bytes) with
  | corrupt => exact ⟨t, -1, rfl, .inl rfl⟩
  | reader msg id =>
    dsimp only [bind, Except.bind]
    cases hn : noExpandSubReader t id with
    | none => exact ⟨t, _, rfl, skipReader_takes data h4 msg⟩
    | some r =>
      obtain ⟨q, hq⟩ := noExpandSubReader_some h hn
      obtain ⟨q', n, hrecv, htakes⟩ := recvIn_takes q ha h4 msg own
      obtain ⟨t', ht', -⟩ := h.ranIn hq q'
      simp only [hq, hrecv, ht', pure, Except.pure]
      exact ⟨_, _, rfl, htakes⟩
  | writer msg id seq =>
    rw [hseg] at hw
    have h8 : msg = .readerBarrier → 8 ≤ data.length := by
      intro same
      subst same
      exact Nat.not_lt.mp hw
    have hskip : Takes data (skipWriter msg) := by
      cases msg with
      | readerResets => exact .inr ⟨4, rfl, Nat.le_refl 4, h4, rfl⟩
      | readerBarrier => exact .inr ⟨8, rfl, by decide, h8 rfl, rfl⟩
    have hnat : ((skipWriter msg).toNat : Int) = skipWriter msg := by
      cases msg with
      | readerResets => rfl
      | readerBarrier => rfl
    dsimp only [bind, Except.bind]
    split
    · exact ⟨t, _, rfl, hskip⟩
    · cases hn : noExpandSubWriter t id with
      | free next => exact ⟨t, _, rfl, hskip⟩
      | alloc r =>
        obtain ⟨q, hq⟩ := noExpandSubWriter_alloc h hn
        obtain ⟨q', hrecv⟩ := recvOut_whole q ha msg h8
        obtain ⟨t', ht', -⟩ := h.ranOut hq q'
        simp only [hq, hrecv, ht', pure, Except.pure]
        exact ⟨_, _, rfl, hnat ▸ hskip⟩
  | connect service seq =>
    rw [hseg] at hw
    have htail : data.tail 4 = .ok ⟨data.base + 4, data.bytes.drop 4⟩ := if_neg (Nat.not_lt.mpr h4)
    have hlen : (⟨data.base + 4, data.bytes.drop 4⟩ : Slice).length = data.length - 4 := List.length_drop ..
    dsimp only [bind, Except.bind]
    rw [htail]
    by_cases h5 : data.length = 4
    · refine ⟨t, -1, ?_, .inl rfl⟩
      have hp : parse ⟨data.base + 4, data.bytes.drop 4⟩ = .ok .corrupt := if_pos (by rw [hlen, h5])
      simp only [hp]
      rfl
    · have h8 : 8 ≤ data.length := by
        by_contra hlt
        exact hw ⟨h5, Nat.not_le.mp hlt⟩
      have h4' : 4 ≤ (⟨data.base + 4, data.bytes.drop 4⟩ : Slice).length := by omega
      have hp : parse ⟨data.base + 4, data.bytes.drop 4⟩ =
          .ok (ofWord (be32 (data.bytes.drop 4))) := parse_whole (show (data.base + 4) % 4 = 0 by omega) h4'
      simp only [hp]
      split
      · rename_i msg id _
        split
        · have htakes := skipReader_takes _ h4' msg
          split
          · exact ⟨t, -1, rfl, .inl rfl⟩
          · rename_i hne
            obtain ⟨k, hk, hk4, hkl, hkm⟩ := htakes.resolve_left hne
            exact ⟨t, _, rfl, .inr ⟨k + 4, by rw [hk]; rfl, by omega, by omega, by omega⟩⟩
        · obtain ⟨t1, h1, hs, hlt⟩ := expandSubReader_ok h id
          simp only [h1]
          have hfour : Takes data 4 := .inr ⟨4, rfl, Nat.le_refl 4, h4, rfl⟩
          cases hin : t1.inStreams id with
          | none =>
            obtain ⟨t2, h2, -⟩ := gotConnection_sound hs hlt service
            simp only [h2, pure, Except.pure]
            exact ⟨_, _, rfl, hfour⟩
          | some r => exact ⟨_, _, rfl, hfour⟩
      · exact ⟨t, -1, rfl, .inl rfl⟩

/-- One to three bytes are no header. -/
theorem parse_short {data : Slice} (h0 : data.length ≠ 0) (h4 : data.length < 4) {msg : Segment} :
    parse data ≠ .ok msg := by
  intro h
  unfold parse parseSlice at h
  rw [if_neg h0, if_pos h4] at h
  obtain ⟨w, hw, -⟩ := bind_ok h
  split at hw
  · cases hw
  · cases hw

theorem recvSegment_torn {data : Slice} (ha : data.base % 4 = 0) (hw : Torn data.bytes) {own : List InStreamQueue.Op} {n : Int}
    (hr : recvSegment t data own = .ok (t', n)) : n ≠ -1 ∧ data.tail n.toNat = .error .subscript := by
  unfold Torn at hw
  obtain ⟨msg, hmsg, hr⟩ := bind_ok hr
  by_cases h4 : data.bytes.length < 4
  · rw [if_pos h4] at hw
    exact absurd hmsg (parse_short (fun h0 => hw (List.length_eq_zero_iff.mp h0)) h4)
  · rw [if_neg h4] at hw
    cases (parse_whole ha (Nat.not_lt.mp h4)).symm.trans hmsg
    split at hr
    · rename_i heq
      rw [heq] at hw
      exact hw.elim
    · rename_i heq
      rw [heq] at hw
      exact hw.elim
    · rename_i msg id seq heq
      rw [heq] at hw
      cases msg with
      | readerResets => exact hw.elim
      | readerBarrier =>
        have htail : data.tail 8 = .error .subscript := if_pos hw
        split at hr
        · cases hr
          exact ⟨by decide, htail⟩
        · split at hr
          · cases hr
            exact ⟨by decide, htail⟩
          · split at hr
            · obtain ⟨p, hp, hr⟩ := bind_ok hr
              obtain ⟨w, hparser, hp⟩ := bind_ok hp
              obtain ⟨sub, hsub, -⟩ := bind_ok hparser
              have hlt : data.length < 4 + 4 := hw
              unfold Slice.subslice at hsub
              rw [if_pos hlt] at hsub
              cases hsub
            · cases hr
    · rename_i service seq heq
      rw [heq] at hw
      obtain ⟨sub, hsub, hr⟩ := bind_ok hr
      obtain ⟨msg', hmsg', hr⟩ := bind_ok hr
      have htail : data.tail 4 = .ok ⟨data.base + 4, data.bytes.drop 4⟩ := if_neg h4
      cases htail.symm.trans hsub
      have hlen : (data.bytes.drop 4).length = data.bytes.length - 4 := List.length_drop ..
      refine absurd hmsg' (parse_short ?_ ?_)
      · show (data.bytes.drop 4).length ≠ 0
        omega
      · show (data.bytes.drop 4).length < 4
        omega

/-! ## The walk over a packet -/

/-- The walk over the segments of `data` comes to what is left in `data'`. -/
inductive Comes : T → Slice → List React → T → Slice → Prop
  | here (t : T) (data : Slice) (reacts : List React) : Comes t data reacts t data
  | next {t t1 t2 t' : T} {data rest data' : Slice} {reacts : List React} {n : Int} : data.length ≠ 0 →
      recvSegment t data ((reacts.head?.map React.own).getD []) = .ok (t1, n) → n ≠ -1 →
      ((reacts.head?.map React.app).getD []).foldlM call t1 = .ok t2 → data.tail n.toNat = .ok rest →
      Comes t2 rest reacts.tail t' data' → Comes t data reacts t' data'

theorem comes_nil {data data' : Slice} {reacts : List React} (h0 : data.length = 0) (h : Comes t data reacts t' data') :
    data' = data := by
  cases h with
  | here => rfl
  | next hne => exact absurd h0 hne

theorem tail_take {data : Slice} {k : Nat} (hk : k ≤ data.length) :
    data.tail k = .ok ⟨data.base + k, data.bytes.drop k⟩ := if_neg (Nat.not_lt.mpr hk)

/-- Each step of the walk is a segment that is not torn, or the end of it. -/
theorem recvSegments_step (h : Sound t) {data : Slice} (ha : data.base % 4 = 0) (h0 : data.length ≠ 0) (reacts : List React) :
    (Torn data.bytes ∧ ∀ fuel, ∃ e, recvSegments (fuel + 1) t data reacts = .error e) ∨
    (¬ Torn data.bytes ∧ (∃ t2, ∀ fuel, recvSegments (fuel + 1) t data reacts = .ok (t2, false)) ∧
      ∀ t' data', Comes t data reacts t' data' → data' = data) ∨
    (¬ Torn data.bytes ∧ ∃ t2 rest, Sound t2 ∧ rest.base % 4 = 0 ∧ rest.length < data.length ∧
      (∀ fuel, recvSegments (fuel + 1) t data reacts = recvSegments fuel t2 rest reacts.tail) ∧
      ∀ t' data', Comes t data reacts t' data' ↔ (t' = t ∧ data' = data) ∨ Comes t2 rest reacts.tail t' data') := by
  by_cases hw : Torn data.bytes
  · refine .inl ⟨hw, fun fuel => ?_⟩
    unfold recvSegments
    rw [if_neg h0]
    cases hr : recvSegment t data ((reacts.head?.map React.own).getD []) with
    | error e => exact ⟨e, rfl⟩
    | ok p =>
      obtain ⟨t1, n⟩ := p
      obtain ⟨hn, htail⟩ := recvSegment_torn ha hw hr
      obtain ⟨t2, h2, -⟩ := calls_sound (recvSegment_sound h hr) ((reacts.head?.map React.app).getD [])
      simp only [bind, Except.bind, h2, if_neg hn, htail]
      exact ⟨_, rfl⟩
  · have hne : data.bytes ≠ [] := fun hnil => h0 (List.length_eq_zero_iff.mpr hnil)
    obtain ⟨t1, n, h1, htakes⟩ := recvSegment_whole h ha hne hw ((reacts.head?.map React.own).getD [])
    obtain ⟨t2, h2, hs2⟩ := calls_sound (recvSegment_sound h h1) ((reacts.head?.map React.app).getD [])
    rcases htakes with rfl | ⟨k, rfl, hk4, hk, hkm⟩
    · refine .inr (.inl ⟨hw, ⟨t2, fun fuel => ?_⟩, fun t' data' hc => ?_⟩)
      · unfold recvSegments
        rw [if_neg h0, h1]
        simp only [bind, Except.bind, h2]
        rfl
      · cases hc with
        | here => rfl
        | next _ h1' hn' =>
          cases h1.symm.trans h1'
          exact absurd rfl hn'
    · have hneg : (k : Int) ≠ -1 := by omega
      have htail : data.tail (k : Int).toNat = .ok ⟨data.base + k, data.bytes.drop k⟩ := tail_take hk
      have hlen : (⟨data.base + k, data.bytes.drop k⟩ : Slice).length = data.length - k := List.length_drop ..
      refine .inr (.inr ⟨hw, t2, ⟨data.base + k, data.bytes.drop k⟩, hs2, ?_, by omega, fun fuel => ?_, fun t' data' => ?_⟩)
      · show (data.base + k) % 4 = 0
        omega
      · conv => lhs; unfold recvSegments
        rw [if_neg h0, h1]
        simp only [bind, Except.bind, h2, if_neg hneg, htail]
      · constructor
        · intro hc
          cases hc with
          | here => exact .inl ⟨rfl, rfl⟩
          | next _ h1' _ h2' htail' hc' =>
            cases h1.symm.trans h1'
            cases h2.symm.trans h2'
            cases htail.symm.trans htail'
            exact .inr hc'
        · rintro (⟨rfl, rfl⟩ | hc)
          · exact .here ..
          · exact .next h0 h1 hneg h2 htail hc

/-- The walk has ended when the bytes have. -/
theorem recvSegments_fuel {fuel fuel' : Nat} (h : Sound t) {data : Slice} (ha : data.base % 4 = 0) {reacts : List React}
    (hf : data.length ≤ fuel) (hf' : data.length ≤ fuel') :
    recvSegments fuel t data reacts = recvSegments fuel' t data reacts := by
  induction fuel generalizing fuel' t data reacts with
  | zero =>
    have h0 : data.length = 0 := Nat.le_zero.mp hf
    cases fuel' with
    | zero => rfl
    | succ fuel' =>
      unfold recvSegments
      rw [if_pos h0]
      rfl
  | succ fuel ih =>
    by_cases h0 : data.length = 0
    · cases fuel' with
      | zero =>
        unfold recvSegments
        rw [if_pos h0]
        rfl
      | succ fuel' =>
        unfold recvSegments
        rw [if_pos h0, if_pos h0]
    · cases fuel' with
      | zero => exact absurd (Nat.le_zero.mp hf') h0
      | succ fuel' =>
        rcases recvSegments_step h ha h0 reacts with ⟨hw, -⟩ | ⟨-, ⟨t2, h2⟩, -⟩ | ⟨-, t2, rest, hs, hb, hlt, heq, -⟩
        · unfold recvSegments
          rw [if_neg h0, if_neg h0]
          cases hr : recvSegment t data ((reacts.head?.map React.own).getD []) with
          | error e => rfl
          | ok p =>
            obtain ⟨hn, htail⟩ := recvSegment_torn ha hw hr
            simp only [bind, Except.bind, if_neg hn, htail]
        · rw [h2, h2]
        · rw [heq, heq]
          exact ih hs hb (by omega) (by omega)

/-- The walk returns unless it comes to a segment that is torn. -/
theorem recvSegments_ok {fuel : Nat} (h : Sound t) {data : Slice} (ha : data.base % 4 = 0) {reacts : List React}
    (hf : data.length ≤ fuel) :
    (∃ p, recvSegments fuel t data reacts = .ok p) ↔ ∀ t' data', Comes t data reacts t' data' → ¬ Torn data'.bytes := by
  have hend : data.length = 0 → ∀ t' data', Comes t data reacts t' data' → ¬ Torn data'.bytes := by
    intro h0 t' data' hc hw
    rw [comes_nil h0 hc, List.length_eq_zero_iff.mp h0] at hw
    exact hw rfl
  induction fuel generalizing t data reacts with
  | zero => exact iff_of_true ⟨_, rfl⟩ (hend (Nat.le_zero.mp hf))
  | succ fuel ih =>
    by_cases h0 : data.length = 0
    · refine iff_of_true ⟨(t, true), ?_⟩ (hend h0)
      unfold recvSegments
      rw [if_pos h0]
      rfl
    · rcases recvSegments_step h ha h0 reacts with ⟨hw, hraise⟩ | ⟨hw, ⟨t2, h2⟩, hc⟩ | ⟨hw, t2, rest, hs, hb, hlt, heq, hc⟩
      · refine iff_of_false (fun hp => ?_) fun hall => hall t data (.here ..) hw
        obtain ⟨p, hp⟩ := hp
        obtain ⟨e, he⟩ := hraise fuel
        cases he.symm.trans hp
      · refine iff_of_true ⟨_, h2 fuel⟩ fun t' data' hcomes => ?_
        rw [hc t' data' hcomes]
        exact hw
      · rw [heq]
        refine (ih hs hb (by omega) ?_).trans ⟨fun hall t' data' hcomes => ?_, fun hall t' data' hcomes => ?_⟩
        · intro h0' t' data' hcomes hw'
          rw [comes_nil h0' hcomes, List.length_eq_zero_iff.mp h0'] at hw'
          exact hw' rfl
        · rcases (hc t' data').mp hcomes with ⟨-, rfl⟩ | hcomes'
          · exact hw
          · exact hall t' data' hcomes'
        · exact hall t' data' ((hc t' data').mpr (.inr hcomes))

end BubbleStorm.Cusp.Stream.HostDispatch
