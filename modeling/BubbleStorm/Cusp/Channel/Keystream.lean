/-
  BubbleStorm.Cusp.Channel.Keystream — no number is used twice under one key
  (`pull` of `src/cusp/channel/negotiation.fun`, `encipher` of `src/util/crypto/counter.fun`).

  A session key is that of two halves in their direction and a symmetric suite. A half is
  used up by its session: WELCOMEs take number 0 and all are the same, DATA counts on from
  1, and the channel leaves the session with a new half only.

  Proved: what a channel enciphers twice under one key and number is a WELCOME, and the
  same one (`run_fresh`); behind different numbers, and different blocks of one number,
  are different inputs of the block cipher (`keystream_unique`).
-/

import BubbleStorm.Cusp.Channel.NegotiationRuns
import BubbleStorm.Util.Crypto.Counter

namespace BubbleStorm.Cusp.Channel.Handshake

open BubbleStorm.Cusp (Exn Bytes)
open BubbleStorm.Cusp.Stream (bind_ok)
open BubbleStorm.Util.Crypto
open Negotiation (Side)

variable {κ : Type}

/-- What was enciphered, the newest in front. -/
def applied (s : St κ) : List (Mac κ) := s.sent.filterMap extractTail

/-- The same key and number: then both are WELCOMEs, byte for byte. -/
def Repeats (m m' : Mac κ) : Prop :=
  m.src = m'.src → m.dst = m'.dst → m.suite = m'.suite → m.nonce = m'.nonce →
    m = m' ∧ ∃ remote B Y, m.text = .welcome remote B Y

/-! ## One channel -/

/-- What was enciphered with the half a channel has. -/
def Used (L : List (Mac κ)) : State κ → Prop
  | .closed _ => True
  | .sent _ half _ => ∀ m ∈ L, m.src.ephemeral ≠ half.ephemeral
  | .received agreed _ half full _ => full.own = half ∧
    ∀ m ∈ L, m.src.ephemeral = half.ephemeral → m = encipher full 0 (.welcome agreed half.static half.ephemeral)
  | .established full _ _ _ tsn _ => 0 ≤ tsn ∧ ∀ m ∈ L, m.src.ephemeral = full.own.ephemeral → m.nonce ≤ tsn

/-- A channel that stays ESTABLISHED goes on counting, and one that was RECEIVED starts. -/
def Counts : State κ → State κ → Prop
  | .received _ _ _ _ _, .established _ _ _ _ tsn _ => tsn = 0
  | .established _ _ _ _ tsn _, .established _ _ _ _ tsn' _ => tsn' = tsn
  | _, _ => True

/-- Encryption is left out of a HELLO only if the endpoint permits it. -/
def Permits (args : Args κ) : State κ → Prop
  | .sent agreed _ _ => agreed.noEncrypt = true → args.bits.noEncrypt = true
  | _ => True

variable {args : Args κ} {n : Nat} {V : Mac κ → Prop} {L : List (Mac κ)} {s st : State κ}

theorem counts_self (s : State κ) : Counts s s := by
  cases s with
  | closed tail => trivial
  | sent agreed half tail => trivial
  | received agreed key half full tail => trivial
  | established full host resume tail tsn asn => exact rfl

theorem counts_establish (agreed : Bits) (key key' : κ) (half : Half κ) (full full' : Full κ) (tail : Option (Mac κ))
    (noEncrypt resume : Bool) : Counts (.received agreed key half full tail) (goESTABLISHED full' key' noEncrypt resume) := rfl

theorem Used.moves (hm : Moves args n V s st) (hc : Counts s st) (hL : ∀ m ∈ L, m.src.ephemeral < n) (h : Used L s) :
    Used L st := by
  have new : ∀ {half : Half κ}, half.ephemeral = n → ∀ m ∈ L, m.src.ephemeral ≠ half.ephemeral := by
    intro half hn m hmem
    have := hL m hmem
    omega
  cases hm with
  | close tail => trivial
  | same => exact h
  | start _ hmade _ => exact new hmade.fresh
  | sent half tail tail' _ => exact h
  | receive _ B Y _ hhalf _ =>
    refine ⟨rfl, fun m hmem he => ?_⟩
    rcases hhalf with hmade | ⟨agreed', tail, rfl⟩
    · exact absurd he (new hmade.fresh m hmem)
    · exact absurd he (h m hmem)
  | received agreed key half full tail tail' => exact h
  | bySent half tail _ _ _ =>
    refine ⟨Int.le_refl 0, fun m hmem he => ?_⟩
    refine absurd he ?_
    split
    · exact h m hmem
    · exact h m hmem
  | byWelcome key half full tail _ _ _ =>
    refine ⟨Int.le_refl 0, fun m hmem he => ?_⟩
    obtain ⟨hown, hall⟩ := h
    have he' : m.src.ephemeral = half.ephemeral := by
      rw [he, ← hown]
      split
      · rfl
      · rfl
    rw [hall m hmem he']
    exact Int.le_refl 0
  | byData agreed key half full tail tail' tsn asn _ =>
    have h0 : tsn = 0 := hc
    subst h0
    refine ⟨Int.le_refl 0, fun m hmem he => ?_⟩
    obtain ⟨hown, hall⟩ := h
    have he' : m.src.ephemeral = half.ephemeral := by
      rw [he, ← hown]
      split
      · rfl
      · rfl
    rw [hall m hmem he']
    exact Int.le_refl 0
  | established full host resume tail tail' tsn asn tsn' asn' =>
    have h0 : tsn' = tsn := hc
    subst h0
    exact h

theorem Permits.moves (hm : Moves args n V s st) (h : Permits args s) : Permits args st := by
  cases hm with
  | same => exact h
  | start _ _ hn => exact hn
  | sent half tail tail' hn => exact fun he => h (hn he)
  | close | receive | received | bySent | byWelcome | byData | established => trivial

/-- The half a channel has is the one it had, or a new one. -/
theorem Moves.half (hm : Moves args n V s st) (h : Used L s) {half : Half κ} (hh : half? st = some half) :
    half.ephemeral = n ∨ half? s = some half := by
  cases hm with
  | close => cases hh
  | same => exact .inr hh
  | start _ hmade _ =>
    cases hh
    exact .inl hmade.fresh
  | sent half tail tail' _ => exact .inr hh
  | receive _ B Y _ hhalf _ =>
    cases hh
    rcases hhalf with hmade | ⟨agreed', tail, rfl⟩
    · exact .inl hmade.fresh
    · exact .inr rfl
  | received agreed key half' full tail tail' => exact .inr hh
  | bySent half' tail _ _ _ =>
    refine .inr ?_
    rw [← hh]
    show some half' = some (ite _ _ _ : Full κ).own
    split
    · rfl
    · rfl
  | byWelcome key half' full tail _ _ _ =>
    refine .inr ?_
    rw [← hh]
    show some half' = some (ite _ _ _ : Full κ).own
    rw [← h.1]
    split
    · rfl
    · rfl
  | byData agreed key half' full tail tail' tsn asn _ =>
    refine .inr ?_
    rw [← hh]
    show some half' = some (ite _ _ _ : Full κ).own
    rw [← h.1]
    split
    · rfl
    · rfl
  | established full host resume tail tail' tsn asn tsn' asn' => exact .inr hh

theorem connect_counts (h : connect args n s = .ok st) : Counts s st := by
  cases s with
  | closed tail => trivial
  | sent agreed half tail => trivial
  | received agreed key half full tail =>
    cases h
    exact counts_self _
  | established full host resume tail tsn asn =>
    cases h
    exact counts_self _


/-! ## A run -/

/-- Every half has its own channel, and what was enciphered with it is what its channel
    tells. -/
structure Fresh (endpoint : Side → Args κ) (s : St κ) : Prop where
  sent : ∀ m ∈ applied s, m.src.ephemeral < s.entropy
  half : ∀ x i h, half? (s.chan x i) = some h → h.ephemeral < s.entropy
  apart : ∀ x i y j h h', half? (s.chan x i) = some h → half? (s.chan y j) = some h' → h.ephemeral = h'.ephemeral →
    y = x ∧ j = i
  used : ∀ x i, Used (applied s) (s.chan x i)
  permits : ∀ x i, Permits (endpoint x) (s.chan x i)
  unique : (applied s).Pairwise Repeats

variable {endpoint : Side → Args κ} {s : St κ}

theorem set_chan (s : St κ) (x : Side) (i : Nat) (st : State κ) (y : Side) (j : Nat) :
    (s.set x i st).chan y j = if y = x ∧ j = i then st else s.chan y j := by
  simp only [St.set, Function.update_apply]
  by_cases hy : y = x
  · subst hy
    by_cases hj : j = i
    · simp [hj]
    · simp [hj]
  · simp [hy]

/-- What holds of the new state and of the other channels holds of all. -/
theorem set_all {P : Side → State κ → Prop} {x : Side} {i : Nat} {st : State κ} (hst : P x st)
    (h : ∀ y j, ¬ (y = x ∧ j = i) → P y (s.chan y j)) (y : Side) (j : Nat) : P y ((s.set x i st).chan y j) := by
  rw [set_chan]
  split
  · rename_i hyj
    exact hyj.1 ▸ hst
  · rename_i hyj
    exact h y j hyj

/-- A channel whose new half is its own or a new one keeps the halves apart. -/
theorem Fresh.apart_set (h : Fresh endpoint s) {x : Side} {i : Nat} {st : State κ}
    (hst : ∀ half, half? st = some half → half.ephemeral = s.entropy ∨ half? (s.chan x i) = some half) (y : Side) (j : Nat)
    (z : Side) (k : Nat) (half half' : Half κ) (hy : half? ((s.set x i st).chan y j) = some half)
    (hz : half? ((s.set x i st).chan z k) = some half') (he : half.ephemeral = half'.ephemeral) : z = y ∧ k = j := by
  rw [set_chan] at hy hz
  split at hy
  · rename_i hyx
    split at hz
    · rename_i hzx
      exact ⟨hzx.1.trans hyx.1.symm, hzx.2.trans hyx.2.symm⟩
    · rcases hst half hy with hn | ho
      · have := h.half z k half' hz
        omega
      · rw [hyx.1, hyx.2]
        exact h.apart x i z k half half' ho hz he
  · split at hz
    · rename_i hzx
      rcases hst half' hz with hn | ho
      · have := h.half y j half hy
        omega
      · rw [hzx.1, hzx.2]
        exact h.apart y j x i half half' hy ho he
    · exact h.apart y j z k half half' hy hz he

theorem Fresh.half_set (h : Fresh endpoint s) {x : Side} {i : Nat} {st : State κ}
    (hst : ∀ half, half? st = some half → half.ephemeral = s.entropy ∨ half? (s.chan x i) = some half) (y : Side) (j : Nat)
    (half : Half κ) (hy : half? ((s.set x i st).chan y j) = some half) : half.ephemeral < (s.set x i st).entropy := by
  show half.ephemeral < s.entropy + 1
  rw [set_chan] at hy
  split at hy
  · rcases hst half hy with hn | ho
    · omega
    · have := h.half x i half ho
      omega
  · have := h.half y j half hy
    omega

/-- A move that enciphers nothing. -/
theorem Fresh.set (h : Fresh endpoint s) {x : Side} {i : Nat} {st : State κ}
    (hm : Moves (endpoint x) s.entropy V (s.chan x i) st) (hc : Counts (s.chan x i) st) : Fresh endpoint (s.set x i st) where
  sent m hmem := Nat.lt_succ_of_lt (h.sent m hmem)
  half := h.half_set fun _ hh => hm.half (h.used x i) hh
  apart := h.apart_set fun _ hh => hm.half (h.used x i) hh
  used := set_all (P := fun _ st => Used (applied s) st) ((h.used x i).moves hm hc h.sent) fun y j _ => h.used y j
  permits := set_all (P := fun y st => Permits (endpoint y) st) ((h.permits x i).moves hm) fun y j _ => h.permits y j
  unique := h.unique

/-- A packet that is not enciphered. -/
theorem Fresh.quiet (h : Fresh endpoint s) {p : Packet κ} (hp : extractTail p = none) :
    Fresh endpoint { s with sent := p :: s.sent } := by
  have he : applied { s with sent := p :: s.sent } = applied s := List.filterMap_cons_none hp
  constructor
  · rw [he]
    exact h.sent
  · exact h.half
  · exact h.apart
  · rw [he]
    exact h.used
  · exact h.permits
  · rw [he]
    exact h.unique

/-- What one channel enciphers says nothing about the others' halves. -/
theorem Used.other {m : Mac κ} {st : State κ} (h : Used L st) (hne : ∀ half, half? st = some half → m.src.ephemeral ≠ half.ephemeral) :
    Used (m :: L) st := by
  cases st with
  | closed tail => trivial
  | sent agreed half tail =>
    intro m' hm'
    rcases List.mem_cons.mp hm' with rfl | hm'
    · exact hne half rfl
    · exact h m' hm'
  | received agreed key half full tail =>
    refine ⟨h.1, fun m' hm' he => ?_⟩
    rcases List.mem_cons.mp hm' with rfl | hm'
    · exact absurd he (hne half rfl)
    · exact h.2 m' hm' he
  | established full host resume tail tsn asn =>
    refine ⟨h.1, fun m' hm' he => ?_⟩
    rcases List.mem_cons.mp hm' with rfl | hm'
    · exact absurd he (hne full.own rfl)
    · exact h.2 m' hm' he

/-- A packet enciphered with the half of the channel. -/
theorem Fresh.push (h : Fresh endpoint s) {x : Side} {i : Nat} {half : Half κ} (hh : half? (s.chan x i) = some half)
    {p : Packet κ} {m : Mac κ} (hp : extractTail p = some m) (hsrc : m.src = half) {st : State κ} (hst : half? st = some half)
    (hu : Used (m :: applied s) st) (hperm : Permits (endpoint x) st) (hr : ∀ m' ∈ applied s, Repeats m m') :
    Fresh endpoint { s.set x i st with sent := p :: s.sent } := by
  have he : applied { s.set x i st with sent := p :: s.sent } = m :: applied s := List.filterMap_cons_some hp
  have hold : ∀ half', half? st = some half' → half'.ephemeral = s.entropy ∨ half? (s.chan x i) = some half' :=
    fun half' hh' => .inr (hh.trans (hst.symm.trans hh'))
  constructor
  · rw [he]
    intro m' hm'
    rcases List.mem_cons.mp hm' with rfl | hm'
    · rw [hsrc]
      exact Nat.lt_succ_of_lt (h.half x i half hh)
    · exact Nat.lt_succ_of_lt (h.sent m' hm')
  · exact h.half_set hold
  · exact h.apart_set hold
  · rw [he]
    refine set_all (P := fun _ st => Used (m :: applied s) st) hu fun y j hne => (h.used y j).other fun half' hh' heq => ?_
    rw [hsrc] at heq
    exact hne (h.apart x i y j half half' hh hh' heq)
  · exact set_all (P := fun y st => Permits (endpoint y) st) hperm fun y j _ => h.permits y j
  · rw [he]
    exact List.pairwise_cons.mpr ⟨hr, h.unique⟩

/-! ## Every step -/

variable [DecidableEq κ]

theorem processDATA_counts {s : State κ} {zombie : Bool} {full : Full κ} {host : κ} {resume : Bool} {tail : Option (Mac κ)}
    {tsn asn rtsn : Int} {finish : Bool} {body : Bytes} {mac : Mac κ}
    (h : ∀ tail' asn', Counts s (.established full host resume tail' tsn asn')) :
    Counts s (processDATA zombie full host resume tail tsn asn rtsn finish body mac) := by
  unfold processDATA
  split
  · exact h ..
  · split
    · cases s <;> trivial
    · exact h ..

theorem recv_counts {s st : State κ} {exist : κ → Bool} {zombie : Bool} {packet : Packet κ} (h : recv args n exist zombie s packet = .ok st) :
    Counts s st := by
  cases s with
  | closed tail => trivial
  | sent agreed half tail => trivial
  | received agreed key half full tail =>
    cases packet with
    | corrupt | fail _ | hello _ _ _ =>
      cases h
      trivial
    | noState tail' =>
      have h' : (if tail = none ∨ tail ≠ tail' then Except.ok (.received agreed key half full tail)
        else goSENT args n args.bits none) = .ok st := h
      split at h'
      · cases h'
        trivial
      · obtain ⟨half', -, rfl⟩ := goSENT_new h'
        trivial
    | welcome remote B Y mac =>
      obtain ⟨confirmed, -, h⟩ := bind_ok h
      split at h
      · cases h
        trivial
      · split at h
        · cases h
          trivial
        · cases h
          exact counts_establish ..
    | data tsn finish body mac =>
      have h' : (if badMAC full mac (.data finish body) tsn then Except.ok (.received agreed key half full tail)
        else .ok (processDATA zombie (if agreed.noEncrypt then { full with noEncrypt := true } else full) key agreed.resume
          none 0 0 tsn finish body mac)) = .ok st := h
      split at h'
      · cases h'
        trivial
      · cases h'
        exact processDATA_counts fun _ _ => rfl
  | established full host resume tail tsn asn =>
    cases packet with
    | corrupt | fail _ | hello _ _ _ | welcome _ _ _ _ =>
      cases h
      exact rfl
    | noState tail' =>
      have h' : (if tail = none ∨ tail ≠ tail' then Except.ok (.established full host resume tail tsn asn)
        else if zombie then .ok (.established full host resume tail tsn asn) else goSENT args n args.bits none) = .ok st := h
      split at h'
      · cases h'
        exact rfl
      · split at h'
        · cases h'
          exact rfl
        · obtain ⟨half', -, rfl⟩ := goSENT_new h'
          trivial
    | data rtsn finish body mac =>
      cases h
      exact processDATA_counts fun _ _ => rfl

theorem Fresh.pull (h : Fresh endpoint s) (x : Side) (i : Nat) (finish : Bool) (body : Bytes) :
    Fresh endpoint (step endpoint s (.pull x i finish body)) := by
  have hm : Moves (endpoint x) s.entropy (fun _ => True) (s.chan x i) (Handshake.pull (endpoint x) finish body (s.chan x i)).2 :=
    pull_moves finish body (s.chan x i)
  show Fresh endpoint { s.set x i (Handshake.pull (endpoint x) finish body (s.chan x i)).2 with
    sent := (Handshake.pull (endpoint x) finish body (s.chan x i)).1 :: s.sent }
  rcases hs : s.chan x i with tail | ⟨agreed, half, tail⟩ | ⟨agreed, key, half, full, tail⟩ | ⟨full, host, resume, tail, tsn, asn⟩
  · have hset := h.set hm (by rw [hs]; trivial)
    rw [hs] at hset
    cases tail with
    | none => exact hset.quiet rfl
    | some tail => exact hset.quiet rfl
  · have hset := h.set hm (by rw [hs]; trivial)
    rw [hs] at hset
    cases tail with
    | none => exact hset.quiet rfl
    | some tail => exact hset.quiet rfl
  · have hu := h.used x i
    rw [hs] at hu
    obtain ⟨hown, hall⟩ := hu
    have hh : half? (s.chan x i) = some half := congrArg half? hs
    -- the WELCOMEs before it are the same
    refine h.push hh rfl hown rfl ⟨hown, fun m' hm' he => ?_⟩ trivial fun m' hm' hsrc _ _ _ => ?_
    · rcases List.mem_cons.mp hm' with rfl | hm'
      · rfl
      · exact hall m' hm' he
    · exact ⟨(hall m' hm' (by rw [← hsrc, ← hown]; rfl)).symm, _, _, _, rfl⟩
  · have hu := h.used x i
    rw [hs] at hu
    obtain ⟨h0, hall⟩ := hu
    have hh : half? (s.chan x i) = some full.own := congrArg half? hs
    refine h.push hh rfl rfl rfl ⟨by omega, fun m' hm' he => ?_⟩ trivial
      fun m' hm' hsrc _ _ hnonce => ?_
    · rcases List.mem_cons.mp hm' with rfl | hm'
      · exact Int.le_refl _
      · have := hall m' hm' he
        omega
    -- the number is a new one
    · have := hall m' hm' (by rw [← hsrc]; rfl)
      have hn : tsn + 1 = m'.nonce := hnonce
      omega

theorem step_fresh (h : Fresh endpoint s) (e : Ev κ) : Fresh endpoint (step endpoint s e) := by
  cases e with
  | connect x i =>
    simp only [step]
    split
    · rename_i st hst
      exact h.set (V := fun _ => True) (connect_moves hst) (connect_counts hst)
    · exact h
  | destroy x i =>
    refine h.set (V := fun _ => True) (.close ..) ?_
    cases s.chan x i <;> trivial
  | pull x i finish body => exact h.pull x i finish body
  | recv x i packet exist zombie =>
    simp only [step]
    split
    · rename_i st hst
      have hsent : ∀ agreed half tail, s.chan x i = .sent agreed half tail → agreed.noEncrypt = true →
          (endpoint x).bits.noEncrypt = true := by
        intro agreed half tail heq
        have := h.permits x i
        rw [heq] at this
        exact this
      exact h.set (recv_moves (V := fun _ => True) (fun _ _ => trivial) hsent hst) (recv_counts hst)
    · exact h

theorem run_fresh (events : List (Ev κ)) : Fresh endpoint (events.foldl (step endpoint) start) := by
  refine List.foldlRecOn events _ ?_ fun s h e _ => step_fresh h e
  · have none : ∀ half : Half κ, half? (State.closed none : State κ) ≠ some half := fun half hh => by cases hh
    exact ⟨fun m hm => (List.not_mem_nil hm).elim, fun x i h hh => absurd hh (none h),
      fun x i y j h h' hh => absurd hh (none h), fun _ _ => trivial, fun _ _ => trivial, List.Pairwise.nil⟩

/-- In every run no number enciphers two packets under one key, but for the WELCOMEs of a
    channel, which are the same. In counter mode the blocks of a packet and its nonce are
    different inputs of the cipher, and different from those of every other number. -/
theorem keystream_unique (events : List (Ev κ)) :
    (applied (events.foldl (step endpoint) start)).Pairwise Repeats ∧
      ∀ (c : Nat) (text : Bytes), c < 2 ^ 96 → Counter.blocks text < 2 ^ 32 - 1 →
        (Counter.inputs c text).Nodup ∧
          ∀ (c' : Nat) (text' : Bytes), c' < 2 ^ 96 → Counter.blocks text' < 2 ^ 32 - 1 → c ≠ c' →
            List.Disjoint (Counter.inputs c text) (Counter.inputs c' text') := by
  refine ⟨(run_fresh events).unique, fun c text hc hb => ⟨Counter.inputs_nodup hc hb, fun c' text' hc' hb' hne => ?_⟩⟩
  exact Counter.inputs_disjoint hc hc' hb hb' hne

theorem keystream_unique_example :
    let s := greeting.foldl (step pair) start
    (applied s).length = 2 ∧ (applied s).Pairwise Repeats ∧
      ∀ (c : Nat) (text : Bytes), c < 2 ^ 96 → Counter.blocks text < 2 ^ 32 - 1 →
        (Counter.inputs c text).Nodup ∧
          ∀ (c' : Nat) (text' : Bytes), c' < 2 ^ 96 → Counter.blocks text' < 2 ^ 32 - 1 → c ≠ c' →
            List.Disjoint (Counter.inputs c text) (Counter.inputs c' text') := by
  exact ⟨by decide, keystream_unique greeting⟩

end BubbleStorm.Cusp.Channel.Handshake
