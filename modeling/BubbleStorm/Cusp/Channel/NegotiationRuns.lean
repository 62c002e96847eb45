/-
  BubbleStorm.Cusp.Channel.NegotiationRuns — the runs of the two endpoints, whatever the
  network delivers.

  `Inv` ties the ghost lists of `Agreement` to a state: what a channel is RECEIVED or
  ESTABLISHED with is in them, and every MAC that was sent is of something in them. A
  half is one channel's, and is new when it is made, so that a list grows by a half that
  it does not have.
-/

import BubbleStorm.Cusp.Channel.Agreement

namespace BubbleStorm.Cusp.Channel.Handshake

open Function (update_of_ne update_self)
open BubbleStorm.Cusp (Exn Bytes)
open Negotiation (Side)
open Suite (Mask)

variable {κ : Type} (endpoint : Side → Args κ) (R R' : List (Rec κ)) (E E' : List (Est κ))

/-- What the lists say of a channel of `x`. -/
def ChanOk (x : Side) : State κ → Prop
  | .closed _ => True
  | .sent agreed half _ => (agreed.noEncrypt = true → (endpoint x).bits.noEncrypt = true) ∧
      (∀ r ∈ R, r.own.ephemeral ≠ half.ephemeral) ∧ ∀ e ∈ E, e.own.ephemeral ≠ half.ephemeral
  | .received agreed _ half full _ => full.own = half ∧ full.noEncrypt = false ∧
      ⟨x, half, full.remote, full.suite, agreed⟩ ∈ R ∧ ∀ e ∈ E, e.own.ephemeral ≠ half.ephemeral
  | .established full _ resume _ _ _ => ⟨x, full.own, full.remote, full.suite, full.noEncrypt, resume⟩ ∈ E

/-- The MAC is of a half in the lists. -/
def Recorded (mac : Mac κ) : Prop :=
  match mac.text with
  | .welcome remote _ _ => ∃ r ∈ R, r.own = mac.src ∧ r.suite = mac.suite ∧ r.agreed = remote
  | .data _ _ => ∃ e ∈ E, e.own = mac.src ∧ e.suite = mac.suite

/-- The half is the channel's own, or new. -/
def Has (s : St κ) (x : Side) (i : Nat) (half : Half κ) : Prop :=
  half? (s.chan x i) = some half ∨ Made (endpoint x) s.entropy half

structure Inv (s : St κ) : Prop where
  owned : ∀ x i half, half? (s.chan x i) = some half → half.ephemeral < s.entropy ∧ half.static = (endpoint x).key half.suite
  apart : ∀ x i a y j b, half? (s.chan x i) = some a → half? (s.chan y j) = some b → a.ephemeral = b.ephemeral → x = y ∧ i = j
  oldR : ∀ r ∈ R, r.own.ephemeral < s.entropy
  oldE : ∀ e ∈ E, e.own.ephemeral < s.entropy
  onceR : (R.map fun r => r.own.ephemeral).Nodup
  onceE : (E.map fun e => e.own.ephemeral).Nodup
  permits : ∀ r ∈ R, r.agreed.noEncrypt = true → (endpoint r.side).bits.noEncrypt = true
  chans : ∀ x i, ChanOk endpoint R E x (s.chan x i)
  macs : ∀ p ∈ s.sent, ∀ mac, extractTail p = some mac → Recorded R E mac
  just : Justified endpoint R E

theorem inv_start : Inv endpoint [] [] (start : St κ) where
  owned _ _ _ h := by cases h
  apart _ _ _ _ _ _ h := by cases h
  oldR _ h := by cases h
  oldE _ h := by cases h
  onceR := .nil
  onceE := .nil
  permits _ h := by cases h
  chans _ _ := trivial
  macs _ h := by cases h
  just := trivial

variable {endpoint} {R R' E E'} {s : St κ} {x : Side} {i : Nat}

theorem St.set_chan (st : State κ) (y : Side) (j : Nat) :
    (s.set x i st).chan y j = st ∧ y = x ∧ j = i ∨ (s.set x i st).chan y j = s.chan y j ∧ (y ≠ x ∨ j ≠ i) := by
  show Function.update s.chan x (Function.update (s.chan x) i st) y j = st ∧ y = x ∧ j = i ∨
    Function.update s.chan x (Function.update (s.chan x) i st) y j = s.chan y j ∧ (y ≠ x ∨ j ≠ i)
  by_cases hy : y = x
  · subst hy
    rw [update_self]
    by_cases hj : j = i
    · subst hj
      exact .inl ⟨update_self .., rfl, rfl⟩
    · exact .inr ⟨update_of_ne hj .., .inr hj⟩
  · rw [update_of_ne hy]
    exact .inr ⟨rfl, .inl hy⟩

theorem St.set_self (st : State κ) : (s.set x i st).chan x i = st := by
  show Function.update s.chan x (Function.update (s.chan x) i st) x i = st
  rw [update_self, update_self]

theorem Recorded.grow {mac : Mac κ} (h : Recorded R E mac) (hR : ∀ r ∈ R, r ∈ R') (hE : ∀ e ∈ E, e ∈ E') :
    Recorded R' E' mac := by
  unfold Recorded at h ⊢
  split at h
  · obtain ⟨r, hr, h⟩ := h
    exact ⟨r, hR r hr, h⟩
  · obtain ⟨e, he, h⟩ := h
    exact ⟨e, hE e he, h⟩

/-- What is added has another half. -/
theorem ChanOk.grow {st : State κ} (h : ChanOk endpoint R E x st) (hR : ∀ r ∈ R, r ∈ R') (hE : ∀ e ∈ E, e ∈ E')
    (hnewR : ∀ r ∈ R', r ∈ R ∨ ∀ half, half? st = some half → r.own.ephemeral ≠ half.ephemeral)
    (hnewE : ∀ e ∈ E', e ∈ E ∨ ∀ half, half? st = some half → e.own.ephemeral ≠ half.ephemeral) :
    ChanOk endpoint R' E' x st := by
  cases st with
  | closed tail => trivial
  | sent agreed half tail =>
    obtain ⟨hb, hr, he⟩ := h
    refine ⟨hb, fun r hmem => ?_, fun e hmem => ?_⟩
    · exact (hnewR r hmem).elim (hr r) fun hne => hne half rfl
    · exact (hnewE e hmem).elim (he e) fun hne => hne half rfl
  | received agreed key half full tail =>
    obtain ⟨ho, hn, hr, he⟩ := h
    refine ⟨ho, hn, hR _ hr, fun e hmem => ?_⟩
    exact (hnewE e hmem).elim (he e) fun hne => hne half rfl
  | established full host resume tail tsn asn => exact hE _ h

/-- A half that is the channel's or new is no other channel's. -/
theorem Inv.has_apart (h : Inv endpoint R E s) {half half' : Half κ} (hhas : Has endpoint s x i half) {y : Side} {j : Nat}
    (hne : y ≠ x ∨ j ≠ i) (hhalf : half? (s.chan y j) = some half') : half.ephemeral ≠ half'.ephemeral := by
  intro heq
  rcases hhas with hown | hmade
  · obtain ⟨rfl, rfl⟩ := h.apart _ _ _ _ _ _ hown hhalf heq
    rcases hne with hne | hne
    · exact hne rfl
    · exact hne rfl
  · have hlt := (h.owned _ _ _ hhalf).1
    rw [← heq, hmade.fresh] at hlt
    exact Nat.lt_irrefl _ hlt

theorem Inv.has_owned (h : Inv endpoint R E s) {half : Half κ} (hhas : Has endpoint s x i half) :
    half.ephemeral < s.entropy + 1 ∧ half.static = (endpoint x).key half.suite := by
  rcases hhas with hown | hmade
  · have ho := h.owned _ _ _ hown
    exact ⟨Nat.lt_succ_of_lt ho.1, ho.2⟩
  · exact ⟨hmade.fresh ▸ Nat.lt_succ_self _, hmade.static⟩

/-- A channel's state changes, and the lists grow by its half. -/
theorem Inv.set (h : Inv endpoint R E s) {st : State κ} (hR : ∀ r ∈ R, r ∈ R') (hE : ∀ e ∈ E, e ∈ E')
    (hhas : ∀ half, half? st = some half → Has endpoint s x i half)
    (hnewR : ∀ r ∈ R', r ∈ R ∨ half? st = some r.own) (hnewE : ∀ e ∈ E', e ∈ E ∨ half? st = some e.own)
    (honceR : (R'.map fun r => r.own.ephemeral).Nodup) (honceE : (E'.map fun e => e.own.ephemeral).Nodup)
    (hpermits : ∀ r ∈ R', r.agreed.noEncrypt = true → (endpoint r.side).bits.noEncrypt = true)
    (hjust : Justified endpoint R' E') (hst : ChanOk endpoint R' E' x st) : Inv endpoint R' E' (s.set x i st) where
  owned y j half hhalf := by
    rcases St.set_chan (s := s) (x := x) (i := i) st y j with ⟨hc, rfl, -⟩ | ⟨hc, -⟩
    · rw [hc] at hhalf
      exact h.has_owned (hhas half hhalf)
    · rw [hc] at hhalf
      have ho := h.owned y j half hhalf
      exact ⟨Nat.lt_succ_of_lt ho.1, ho.2⟩
  apart y j a z k b ha hb hab := by
    rcases St.set_chan (s := s) (x := x) (i := i) st y j with ⟨hy, rfl, rfl⟩ | ⟨hy, hney⟩
    · rcases St.set_chan (s := s) (x := y) (i := j) st z k with ⟨-, rfl, rfl⟩ | ⟨hz, hnez⟩
      · exact ⟨rfl, rfl⟩
      · rw [hy] at ha
        rw [hz] at hb
        exact absurd hab (h.has_apart (hhas a ha) hnez hb)
    · rcases St.set_chan (s := s) (x := x) (i := i) st z k with ⟨hz, rfl, rfl⟩ | ⟨hz, -⟩
      · rw [hy] at ha
        rw [hz] at hb
        exact absurd hab.symm (h.has_apart (hhas b hb) hney ha)
      · rw [hy] at ha
        rw [hz] at hb
        exact h.apart _ _ _ _ _ _ ha hb hab
  oldR r hr := (hnewR r hr).elim (fun hr => Nat.lt_succ_of_lt (h.oldR r hr)) fun hr => (h.has_owned (hhas _ hr)).1
  oldE e he := (hnewE e he).elim (fun he => Nat.lt_succ_of_lt (h.oldE e he)) fun he => (h.has_owned (hhas _ he)).1
  onceR := honceR
  onceE := honceE
  permits := hpermits
  chans y j := by
    rcases St.set_chan (s := s) (x := x) (i := i) st y j with ⟨hc, rfl, -⟩ | ⟨hc, hne⟩
    · rw [hc]
      exact hst
    · rw [hc]
      refine (h.chans y j).grow hR hE (fun r hr => (hnewR r hr).imp id fun hown half hhalf => ?_)
        fun e he => (hnewE e he).imp id fun hown half hhalf => ?_
      · exact h.has_apart (hhas _ hown) hne hhalf
      · exact h.has_apart (hhas _ hown) hne hhalf
  macs p hp mac hmac := (h.macs p hp mac hmac).grow hR hE
  just := hjust

/-- The lists stay as they are. -/
theorem Inv.keep (h : Inv endpoint R E s) {st : State κ} (hhas : ∀ half, half? st = some half → Has endpoint s x i half)
    (hst : ChanOk endpoint R E x st) : Inv endpoint R E (s.set x i st) :=
  h.set (fun _ => id) (fun _ => id) hhas (fun _ => .inl) (fun _ => .inl) h.onceR h.onceE h.permits h.just hst

theorem Inv.receive (h : Inv endpoint R E s) {agreed : Bits} {half : Half κ} {full : Full κ} (key : κ) (tail : Option (Mac κ))
    (hhas : Has endpoint s x i half) (hown : full.own = half) (hfull : full.noEncrypt = false)
    (hr : ∀ r ∈ R, r.own.ephemeral ≠ half.ephemeral) (he : ∀ e ∈ E, e.own.ephemeral ≠ half.ephemeral)
    (hbits : agreed.noEncrypt = true → (endpoint x).bits.noEncrypt = true) :
    Inv endpoint (⟨x, half, full.remote, full.suite, agreed⟩ :: R) E (s.set x i (.received agreed key half full tail)) := by
  refine h.set (fun r hr => .tail _ hr) (fun _ => id) (fun z hz => ?_) (fun r hmem => ?_) (fun _ => .inl) ?_ h.onceE
    (fun r hmem => ?_) (h.just.grow he) ⟨hown, hfull, .head _, he⟩
  · cases hz
    exact hhas
  · rcases List.mem_cons.mp hmem with rfl | hmem
    · exact .inr rfl
    · exact .inl hmem
  · refine List.nodup_cons.mpr ⟨fun hmem => ?_, h.onceR⟩
    obtain ⟨r, hmem, heq⟩ := List.mem_map.mp hmem
    exact hr r hmem heq
  · rcases List.mem_cons.mp hmem with rfl | hmem
    · exact hbits
    · exact h.permits r hmem

theorem Inv.establish (h : Inv endpoint R E s) (full : Full κ) {n resume : Bool} (host : κ) (tail : Option (Mac κ))
    (tsn asn : Int) (hhalf : half? (s.chan x i) = some full.own) (hfull : full.noEncrypt = false)
    (he : ∀ e ∈ E, e.own.ephemeral ≠ full.own.ephemeral)
    (hr : Honest endpoint full.remote → Reason endpoint R E ⟨x, full.own, full.remote, full.suite, n, resume⟩) :
    Inv endpoint R (⟨x, full.own, full.remote, full.suite, n, resume⟩ :: E)
      (s.set x i (.established (if n then { full with noEncrypt := true } else full) host resume tail tsn asn)) := by
  have hkeyed : ∀ f : Full κ, f = (if n then { full with noEncrypt := true } else full) →
      f.own = full.own ∧ f.remote = full.remote ∧ f.suite = full.suite ∧ f.noEncrypt = n := by
    intro f same
    subst same
    cases n with
    | false => exact ⟨rfl, rfl, rfl, hfull⟩
    | true => exact ⟨rfl, rfl, rfl, rfl⟩
  obtain ⟨hown, hremote, hsuite, hn⟩ := hkeyed _ rfl
  refine h.set (fun _ => id) (fun e he => .tail _ he) (fun z hz => ?_) (fun _ => .inl) (fun e hmem => ?_) h.onceR ?_ h.permits
    ⟨hr, h.just⟩ ?_
  · exact .inl (hhalf.trans ((congrArg some hown.symm).trans hz))
  · rcases List.mem_cons.mp hmem with rfl | hmem
    · exact .inr (congrArg some hown)
    · exact .inl hmem
  · refine List.nodup_cons.mpr ⟨fun hmem => ?_, h.onceE⟩
    obtain ⟨e, hmem, heq⟩ := List.mem_map.mp hmem
    exact he e hmem heq
  · dsimp only [ChanOk]
    rw [hown, hremote, hsuite, hn]
    exact .head _

/-- A MAC between two halves of endpoints is of something in the lists. -/
theorem Inv.recorded (h : Inv endpoint R E s) {full : Full κ} {sn : Int} {text : Text κ} (hown : half? (s.chan x i) = some full.own)
    (hremote : Honest endpoint full.remote) (hv : Makes endpoint s (decipher full sn text)) :
    Recorded R E (decipher full sn text) := by
  rcases hv with ⟨p, hp, hmac⟩ | hsrc | hdst
  · exact h.macs p hp _ hmac
  · exact absurd hremote hsrc
  · exact absurd ⟨x, full.own.suite, (h.owned _ _ _ hown).2⟩ hdst

theorem Inv.made_new (h : Inv endpoint R E s) {half : Half κ} (hmade : Made (endpoint x) s.entropy half) :
    (∀ r ∈ R, r.own.ephemeral ≠ half.ephemeral) ∧ ∀ e ∈ E, e.own.ephemeral ≠ half.ephemeral := by
  rw [hmade.fresh]
  exact ⟨fun r hr => Nat.ne_of_lt (h.oldR r hr), fun e he => Nat.ne_of_lt (h.oldE e he)⟩

/-- One case for each thing that can become of the channel. -/
theorem moves_inv (h : Inv endpoint R E s) {st : State κ}
    (hm : Moves (endpoint x) s.entropy (Makes endpoint s) (s.chan x i) st) : ∃ R' E', Inv endpoint R' E' (s.set x i st) := by
  have hc := h.chans x i
  generalize hch : s.chan x i = c at hm hc
  have hhalf : ∀ half, half? c = some half → Has endpoint s x i half := fun half hz => .inl (hch ▸ hz)
  cases hm with
  | close _ tail => exact ⟨R, E, h.keep (fun _ hz => by cases hz) trivial⟩
  | same => exact ⟨R, E, h.keep hhalf hc⟩
  | start _ hmade hn =>
    refine ⟨R, E, h.keep (fun z hz => ?_) ⟨hn, h.made_new hmade⟩⟩
    cases hz
    exact .inr hmade
  | sent half tail tail' hn => exact ⟨R, E, h.keep hhalf ⟨fun h' => hc.1 (hn h'), hc.2⟩⟩
  | receive _ B Y hn hown hsym =>
    rename_i agreed half suite
    rcases hown with hmade | ⟨agreed', tail, rfl⟩
    · obtain ⟨hr, he⟩ := h.made_new hmade
      exact ⟨_, E, h.receive B none (.inr hmade) rfl rfl hr he hn⟩
    · exact ⟨_, E, h.receive B none (hhalf half rfl) rfl rfl hc.2.1 hc.2.2 hn⟩
  | received agreed key half full tail tail' => exact ⟨R, E, h.keep hhalf hc⟩
  | bySent half tail hv hsym hn =>
    rename_i agreed remote suite B Y
    refine ⟨R, _, h.establish (symmetric half suite B Y) B none 0 0 (congrArg half? hch) rfl hc.2.2 fun hh => ?_⟩
    obtain ⟨b, hb, hown, hsuite, hagreed⟩ := h.recorded (congrArg half? hch) hh hv
    exact .inl ⟨hc.2.1, ⟨b, hb, hown, hsuite, congrArg _ hagreed, congrArg _ hagreed⟩, fun h' => hc.1 (hn h')⟩
  | byWelcome key half full tail hv hn hres =>
    rename_i agreed remote B Y
    obtain ⟨rfl, hfull, hr, he⟩ := hc
    refine ⟨R, _, h.establish full key none 0 0 (congrArg half? hch) hfull he fun hh => ?_⟩
    obtain ⟨b, hb, hown, hsuite, hagreed⟩ := h.recorded (congrArg half? hch) hh hv
    exact .inr (.inl ⟨⟨_, hr, rfl, rfl, rfl, hn, hres⟩, b, hb, hown, hsuite, congrArg _ hagreed, congrArg _ hagreed⟩)
  | byData agreed key half full tail tail' tsn asn hv =>
    obtain ⟨rfl, hfull, hr, he⟩ := hc
    refine ⟨R, _, h.establish full key tail' tsn asn (congrArg half? hch) hfull he fun hh => ?_⟩
    obtain ⟨e, hmem, hown, hsuite⟩ := h.recorded (congrArg half? hch) hh hv
    exact .inr (.inr ⟨⟨_, hr, rfl, rfl, rfl, rfl, rfl⟩, e, hmem, hown, hsuite⟩)
  | established full host resume tail tail' tsn asn tsn' asn' => exact ⟨R, E, h.keep hhalf hc⟩

/-- What is sent comes with a MAC of the channel's own. -/
theorem pull_recorded {args : Args κ} {finish : Bool} {body : Bytes} {st : State κ} {mac : Mac κ}
    (h : ChanOk endpoint R E x (pull args finish body st).2) (hmac : extractTail (pull args finish body st).1 = some mac) :
    Recorded R E mac := by
  cases st with
  | closed tail => cases tail <;> cases hmac
  | sent agreed half tail => cases tail <;> cases hmac
  | received agreed key half full tail =>
    obtain ⟨hown, -, hr, -⟩ := h
    cases hmac
    exact ⟨_, hr, hown.symm, rfl, rfl⟩
  | established full host resume tail tsn asn =>
    cases hmac
    exact ⟨_, h, rfl, rfl⟩

theorem Inv.send (h : Inv endpoint R E s) {p : Packet κ} (hp : ∀ mac, extractTail p = some mac → Recorded R E mac) :
    Inv endpoint R E { s with sent := p :: s.sent } :=
  { h with
    macs := fun q hq mac hmac => by
      rcases List.mem_cons.mp hq with rfl | hq
      · exact hp mac hmac
      · exact h.macs q hq mac hmac }

variable [DecidableEq κ]

theorem step_inv (h : Inv endpoint R E s) (e : Ev κ) (hf : Feasible endpoint s e) :
    ∃ R' E', Inv endpoint R' E' (step endpoint s e) := by
  cases e with
  | connect x i =>
    unfold step
    dsimp only
    split
    · rename_i st hst
      exact moves_inv h (connect_moves hst)
    · exact ⟨R, E, h⟩
  | destroy x i => exact moves_inv h (.close _ none)
  | pull x i finish body =>
    obtain ⟨R', E', h'⟩ := moves_inv h (pull_moves finish body (s.chan x i))
    have hc : ChanOk endpoint R' E' x (pull (endpoint x) finish body (s.chan x i)).2 := by
      have hc := h'.chans x i
      rwa [St.set_self] at hc
    exact ⟨R', E', h'.send fun mac hmac => pull_recorded hc hmac⟩
  | recv x i packet exist zombie =>
    unfold step
    dsimp only
    split
    · rename_i st hst
      refine moves_inv h (recv_moves (fun mac hmac => ?_) (fun agreed half tail hs => ?_) hst)
      · cases packet with
        | corrupt => cases hmac
        | fail remote => cases hmac
        | noState tail => cases hmac
        | hello remote B Y => cases hmac
        | welcome remote B Y mac' =>
          cases hmac
          exact hf
        | data tsn finish body mac' =>
          cases hmac
          exact hf
      · have hc := h.chans x i
        rw [hs] at hc
        exact hc.1
    · exact ⟨R, E, h⟩

theorem reach_inv (h : Reach endpoint s) : ∃ R E, Inv endpoint R E s := by
  induction h with
  | start => exact ⟨[], [], inv_start endpoint⟩
  | step e _ hf ih =>
    obtain ⟨R, E, h⟩ := ih
    exact step_inv h e hf

/-- Two channels that were established with each other's halves agree, and leave out
encryption only if both endpoints permit it. -/
theorem negotiation_agreement (h : Reach endpoint s) {x y : Side} {i j : Nat} {f g : Full κ} {host host' : κ}
    {resume resume' : Bool} {tail tail' : Option (Mac κ)} {tsn asn tsn' asn' : Int}
    (hx : s.chan x i = .established f host resume tail tsn asn) (hy : s.chan y j = .established g host' resume' tail' tsn' asn')
    (hpair : f.remote = g.own) (hpair' : g.remote = f.own) :
    f.suite = g.suite ∧ f.noEncrypt = g.noEncrypt ∧ resume = resume' ∧
      (f.noEncrypt = true → (endpoint x).bits.noEncrypt = true ∧ (endpoint y).bits.noEncrypt = true) := by
  obtain ⟨R, E, hinv⟩ := reach_inv h
  have hf := hinv.chans x i
  have hg := hinv.chans y j
  rw [hx] at hf
  rw [hy] at hg
  have hown : f.own.static = (endpoint x).key f.own.suite := (hinv.owned x i f.own (congrArg half? hx)).2
  have hown' : g.own.static = (endpoint y).key g.own.suite := (hinv.owned y j g.own (congrArg half? hy)).2
  have hh : Honest endpoint f.remote := ⟨y, g.own.suite, hpair ▸ hown'⟩
  have hh' : Honest endpoint g.remote := ⟨x, f.own.suite, hpair' ▸ hown⟩
  obtain ⟨hsuite, hn, hres⟩ := agree hinv.onceR hinv.onceE hinv.just hf hg hh hh' hpair.symm hpair'
  obtain ⟨_, -, hr⟩ := hinv.just.mem hf hh
  obtain ⟨_, -, hr'⟩ := hinv.just.mem hg hh'
  exact ⟨hsuite, hn, hres, fun hne => ⟨hr.permits hinv.permits hne, hr'.permits hinv.permits (hn.symm.trans hne)⟩⟩

/-- The network can bring about the events, one after the other. -/
def Feasibles (endpoint : Side → Args κ) (s : St κ) : List (Ev κ) → Prop
  | [] => True
  | e :: es => Feasible endpoint s e ∧ Feasibles endpoint (step endpoint s e) es

theorem reach_foldl {es : List (Ev κ)} (h : Reach endpoint s) (hf : Feasibles endpoint s es) :
    Reach endpoint (es.foldl (step endpoint) s) := by
  induction es generalizing s with
  | nil => exact h
  | cons e es ih => exact ih (.step e h hf.1) hf.2

/-- Two endpoints with every suite, which permit to leave out encryption. -/
def pair (x : Side) : Args Nat := ⟨⟨3, 3, true, true⟩, fun _ => match x with | .near => 10 | .far => 20⟩

/-- A handshake without a fault: HELLO, WELCOME and the first DATA. -/
def greeting : List (Ev Nat) :=
  let near : Half Nat := ⟨1, 10, 0⟩
  let far : Half Nat := ⟨1, 20, 2⟩
  let agreed : Bits := ⟨3, 3, true, false⟩
  [.connect .near 0, .pull .near 0 false [],
    .recv .far 0 (.hello ⟨3, 3, true, true⟩ 10 0) (fun _ => false) false, .pull .far 0 false [],
    .recv .near 0 (.welcome agreed 20 2 ⟨far, near, 1, 0, .welcome agreed 20 2⟩) (fun _ => false) false,
    .pull .near 0 false [], .recv .far 0 (.data 1 false [] ⟨near, far, 1, 1, .data false []⟩) (fun _ => false) false]

theorem negotiation_agreement_example :
    let s := greeting.foldl (step pair) start
    let near : Full Nat := ⟨⟨1, 10, 0⟩, ⟨1, 20, 2⟩, 1, true⟩
    let far : Full Nat := ⟨⟨1, 20, 2⟩, ⟨1, 10, 0⟩, 1, true⟩
    (s.chan .near 0 = .established near 20 false (some (encipher near 1 (.data false []))) 1 0 ∧
      s.chan .far 0 = .established far 10 false none 0 1) ∧
      near.suite = far.suite ∧ near.noEncrypt = far.noEncrypt ∧ false = false ∧
        (near.noEncrypt = true → (pair .near).bits.noEncrypt = true ∧ (pair .far).bits.noEncrypt = true) := by
  intro s near far
  have hr : Reach pair s := reach_foldl .start
    ⟨trivial, trivial, trivial, trivial, .inl ⟨_, .head _, rfl⟩, trivial, .inl ⟨_, .head _, rfl⟩, trivial⟩
  have hnear : s.chan .near 0 = .established near 20 false (some (encipher near 1 (.data false []))) 1 0 := by decide
  have hfar : s.chan .far 0 = .established far 10 false none 0 1 := by decide
  exact ⟨⟨hnear, hfar⟩, negotiation_agreement hr hnear hfar rfl rfl⟩

end BubbleStorm.Cusp.Channel.Handshake
