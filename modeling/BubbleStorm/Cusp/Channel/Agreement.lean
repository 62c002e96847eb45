/-
  BubbleStorm.Cusp.Channel.Agreement — two ESTABLISHED channels of one pair of halves
  agree on what they negotiated.

  `Moves` says once what can become of a channel's state. The runs are read through two
  ghost lists: `R`, what each half was RECEIVED with, and `E`, what each half was
  ESTABLISHED with, the newest in front. A half is in each at most once. Of a pair the
  first half to be established was so by a WELCOME, and the second by a DATA of the first
  or by a WELCOME too; `Inv` carries why each was established, and `agree_newest`
  compares the two reasons.
-/

import Mathlib.Data.List.Nodup
import BubbleStorm.Cusp.Channel.Handshake

namespace BubbleStorm.Cusp.Channel.Handshake

open BubbleStorm.Cusp (Exn Bytes)
open BubbleStorm.Cusp.Stream (bind_ok)
open Negotiation (Side)
open Suite (Mask)

variable {κ : Type}

/-- The half a channel has. -/
def half? : State κ → Option (Half κ)
  | .closed _ => none
  | .sent _ half _ => some half
  | .received _ _ half _ _ => some half
  | .established full _ _ _ _ _ => some full.own

/-! ## What becomes of a channel -/

/-- A half that the endpoint makes. -/
structure Made (args : Args κ) (n : Nat) (half : Half κ) : Prop where
  fresh : half.ephemeral = n
  static : half.static = args.key half.suite

/-- `V` are the MACs that come with the packet. -/
inductive Moves (args : Args κ) (n : Nat) (V : Mac κ → Prop) : State κ → State κ → Prop
  | close (s : State κ) (tail : Option (Mac κ)) : Moves args n V s (.closed tail)
  | same (s : State κ) : Moves args n V s s
  | start (s : State κ) {agreed : Bits} {half : Half κ} : Made args n half →
      (agreed.noEncrypt = true → args.bits.noEncrypt = true) → Moves args n V s (.sent agreed half none)
  | sent {agreed agreed' : Bits} (half : Half κ) (tail tail' : Option (Mac κ)) :
      (agreed'.noEncrypt = true → agreed.noEncrypt = true) → Moves args n V (.sent agreed half tail) (.sent agreed' half tail')
  | receive (s : State κ) {agreed : Bits} {half : Half κ} {suite : Mask} (B : κ) (Y : Nat) :
      (agreed.noEncrypt = true → args.bits.noEncrypt = true) →
      (Made args n half ∨ ∃ agreed' tail, s = .sent agreed' half tail) →
      Suite.Symmetric.cheapest agreed.symmetric = .ok (some suite) →
      Moves args n V s (.received agreed B half (symmetric half suite B Y) none)
  | received (agreed : Bits) (key : κ) (half : Half κ) (full : Full κ) (tail tail' : Option (Mac κ)) :
      Moves args n V (.received agreed key half full tail) (.received agreed key half full tail')
  | bySent {agreed remote : Bits} (half : Half κ) (tail : Option (Mac κ)) {suite : Mask} {B : κ} {Y : Nat} :
      V (decipher (symmetric half suite B Y) 0 (.welcome remote B Y)) →
      Suite.Symmetric.cheapest remote.symmetric = .ok (some suite) →
      (remote.noEncrypt = true → agreed.noEncrypt = true) →
      Moves args n V (.sent agreed half tail) (goESTABLISHED (symmetric half suite B Y) B remote.noEncrypt remote.resume)
  | byWelcome {agreed remote : Bits} (key : κ) (half : Half κ) (full : Full κ) (tail : Option (Mac κ)) {B : κ} {Y : Nat} :
      V (decipher full 0 (.welcome remote B Y)) →
      (remote.noEncrypt = true → agreed.noEncrypt = true) → (remote.resume = true → agreed.resume = true) →
      Moves args n V (.received agreed key half full tail) (goESTABLISHED full key remote.noEncrypt remote.resume)
  | byData (agreed : Bits) (key : κ) (half : Half κ) (full : Full κ) (tail tail' : Option (Mac κ)) {sn : Int} {finish : Bool}
      {body : Bytes} (tsn asn : Int) : V (decipher full sn (.data finish body)) →
      Moves args n V (.received agreed key half full tail)
        (.established (if agreed.noEncrypt then { full with noEncrypt := true } else full) key agreed.resume tail' tsn asn)
  | established (full : Full κ) (host : κ) (resume : Bool) (tail tail' : Option (Mac κ)) (tsn asn tsn' asn' : Int) :
      Moves args n V (.established full host resume tail tsn asn) (.established full host resume tail' tsn' asn')

variable {args : Args κ} {n : Nat} {V : Mac κ → Prop}

theorem publickey_made (suite : Mask) : Made args n (publickey args n suite) := ⟨rfl, rfl⟩

theorem goSENT_new {bits : Bits} {st : State κ} (h : goSENT args n bits none = .ok st) :
    ∃ half, Made args n half ∧ st = .sent bits half none := by
  obtain ⟨c, -, h⟩ := bind_ok h
  obtain ⟨suite, -, h⟩ := bind_ok h
  cases h
  exact ⟨_, publickey_made suite, rfl⟩

/-- What `processHELLO` does to a channel whose half, if it has one, is that of SENT. -/
theorem processHELLO_moves {exist : κ → Bool} {agreed remote : Bits} {half : Option (Half κ)} {B : κ} {Y : Nat}
    {s st : State κ} (hs : ∀ z, half = some z → ∃ tail, s = .sent agreed z tail)
    (hbits : agreed.noEncrypt = true → args.bits.noEncrypt = true)
    (h : processHELLO args n exist agreed half remote B Y = .ok st) : Moves args n V s st := by
  unfold processHELLO at h
  obtain ⟨half', hhalf, h⟩ := bind_ok h
  have hkept : ∀ z, half' = some z → ∃ tail, s = .sent agreed z tail := by
    intro z hz
    cases half with
    | none =>
      cases hhalf
      cases hz
    | some y =>
      obtain ⟨c, -, hhalf⟩ := bind_ok hhalf
      obtain ⟨c', -, hhalf⟩ := bind_ok hhalf
      have hhalf' : (if Suite.contains remote.publickey c' then some y else none) = half' := Except.ok.inj hhalf
      rw [hz] at hhalf'
      split at hhalf'
      · exact hs z hhalf'
      · cases hhalf'
  obtain ⟨c, -, h⟩ := bind_ok h
  -- the intersection is not stronger than what was agreed
  have hie : (agreed.noEncrypt && remote.noEncrypt) = true → agreed.noEncrypt = true := fun h => (Bool.and_eq_true _ _ ▸ h).1
  have stay : ∀ {bits : Bits}, (bits.noEncrypt = true → agreed.noEncrypt = true) → goSENT args n bits half' = .ok st →
      Moves args n V s st := by
    intro bits hb hst
    cases half' with
    | none =>
      obtain ⟨half, hmade, rfl⟩ := goSENT_new hst
      exact .start s hmade fun hn => hbits (hb hn)
    | some z =>
      obtain ⟨tail, rfl⟩ := hkept z rfl
      cases hst
      exact .sent z tail none hb
  dsimp only at h
  split at h
  · cases h
    exact .close s none
  · split at h
    · exact stay hie h
    · rename_i suite _
      split at h
      · exact stay hie h
      · obtain ⟨o, hc, h⟩ := bind_ok h
        obtain ⟨sym, hv, h⟩ := bind_ok h
        cases h
        have ho : o = some sym := by
          cases o with
          | none => cases hv
          | some x =>
            cases hv
            rfl
        subst ho
        refine .receive s B Y (fun hn => hbits (hie hn)) ?_ hc
        cases half' with
        | none => exact .inl (publickey_made suite)
        | some z =>
          obtain ⟨tail, hz⟩ := hkept z rfl
          exact .inr ⟨agreed, tail, hz⟩

/-- A WELCOME that is confirmed is not stronger than what was agreed. -/
theorem confirmWELCOME_le {agreed remote : Bits} (h : confirmWELCOME agreed remote = .ok true) :
    (remote.noEncrypt = true → agreed.noEncrypt = true) ∧ (remote.resume = true → agreed.resume = true) := by
  unfold confirmWELCOME at h
  split at h
  · cases h
  · split at h
    · cases h
    · split at h
      · cases h
      · obtain ⟨rp, -, h⟩ := bind_ok h
        obtain ⟨sp, -, h⟩ := bind_ok h
        have hb := Except.ok.inj h
        rw [Bool.and_eq_true, Bool.and_eq_true] at hb
        obtain ⟨⟨-, hn⟩, hr⟩ := hb
        refine ⟨fun hne => ?_, fun hre => ?_⟩
        · rw [hne, Bool.not_true, Bool.or_false] at hn
          exact hn
        · rw [hre, Bool.not_true, Bool.or_false] at hr
          exact hr

variable [DecidableEq κ]

theorem badMAC_false {full : Full κ} {mac : Mac κ} {text : Text κ} {sn : Int} (h : badMAC full mac text sn = false) :
    mac = decipher full sn text := by
  by_contra hne
  exact absurd h (by rw [badMAC, decide_eq_true hne]; exact Bool.noConfusion)

theorem acceptWELCOME_some {half : Half κ} {agreed remote : Bits} {B : κ} {Y : Nat} {mac : Mac κ} {st : State κ}
    (h : acceptWELCOME half agreed remote B Y mac = some st) :
    ∃ suite, Suite.Symmetric.cheapest remote.symmetric = .ok (some suite) ∧
      mac = decipher (symmetric half suite B Y) 0 (.welcome remote B Y) ∧
      (remote.noEncrypt = true → agreed.noEncrypt = true) ∧
      st = goESTABLISHED (symmetric half suite B Y) B remote.noEncrypt remote.resume := by
  unfold acceptWELCOME at h
  split at h
  · cases h
  · rename_i confirmed hc
    split at h
    · cases h
    · rename_i hconf
      rw [Bool.not_eq_true, Bool.not_eq_false'] at hconf
      subst hconf
      split at h
      · cases h
      · cases h
      · rename_i rs hrs
        dsimp only at h
        split at h
        · cases h
        · rename_i hmac
          exact ⟨rs, hrs, badMAC_false (Bool.eq_false_iff.mpr hmac), (confirmWELCOME_le hc).1, (Option.some.inj h).symm⟩

theorem processDATA_moves {zombie : Bool} {full : Full κ} {host : κ} {resume : Bool} {tail : Option (Mac κ)}
    {tsn asn rtsn : Int} {finish : Bool} {body : Bytes} {mac : Mac κ} {s : State κ}
    (h : ∀ tail' tsn' asn', Moves args n V s (.established full host resume tail' tsn' asn')) :
    Moves args n V s (processDATA zombie full host resume tail tsn asn rtsn finish body mac) := by
  unfold processDATA
  split
  · exact h ..
  · split
    · exact .close ..
    · exact h ..

/-- Every transition of `recv` is one of `Moves`. -/
theorem recv_moves {exist : κ → Bool} {zombie : Bool} {s st : State κ} {packet : Packet κ}
    (hV : ∀ mac, extractTail packet = some mac → V mac)
    (hsent : ∀ agreed half tail, s = .sent agreed half tail → agreed.noEncrypt = true → args.bits.noEncrypt = true)
    (h : recv args n exist zombie s packet = .ok st) : Moves args n V s st := by
  cases s with
  | closed tail =>
    cases packet with
    | corrupt =>
      cases h
      exact .same _
    | fail remote =>
      cases h
      exact .same _
    | noState tail' =>
      cases h
      exact .same _
    | hello remote B Y => exact processHELLO_moves (fun z hz => by cases hz) id h
    | welcome remote B Y mac =>
      cases h
      exact .close ..
    | data tsn finish body mac =>
      cases h
      exact .close ..
  | sent agreed half tail =>
    have keep : ∀ tail', Moves args n V (.sent agreed half tail) (.sent agreed half tail') := fun tail' => .sent half tail tail' id
    cases packet with
    | corrupt =>
      cases h
      exact .same _
    | fail remote =>
      cases h
      exact .same _
    | noState tail' =>
      cases h
      exact .same _
    | hello remote B Y =>
      refine processHELLO_moves (fun z hz => ?_) (hsent agreed half tail rfl) h
      cases hz
      exact ⟨tail, rfl⟩
    | welcome remote B Y mac =>
      have hst : processWELCOME half agreed remote B Y mac = st := Except.ok.inj h
      unfold processWELCOME at hst
      rcases ha : acceptWELCOME half agreed remote B Y mac with _ | st'
      · rw [ha] at hst
        subst hst
        exact keep _
      · rw [ha] at hst
        subst hst
        obtain ⟨suite, hc, hmac, hn, rfl⟩ := acceptWELCOME_some ha
        exact .bySent half tail (hV _ (congrArg some hmac)) hc hn
    | data tsn finish body mac =>
      cases h
      exact keep _
  | received agreed key half full tail =>
    cases packet with
    | corrupt =>
      cases h
      exact .same _
    | fail remote =>
      cases h
      exact .same _
    | noState tail' =>
      have h' : (if tail = none ∨ tail ≠ tail' then Except.ok (.received agreed key half full tail)
        else goSENT args n args.bits none) = .ok st := h
      split at h'
      · cases h'
        exact .same _
      · obtain ⟨half', hmade, rfl⟩ := goSENT_new h'
        exact .start _ hmade id
    | hello remote B Y =>
      cases h
      exact .same _
    | welcome remote B Y mac =>
      obtain ⟨confirmed, hc, h⟩ := bind_ok h
      split at h
      · cases h
        exact .same _
      · rename_i hconf
        rw [Bool.not_eq_true, Bool.not_eq_false'] at hconf
        subst hconf
        obtain ⟨hn, hr⟩ := confirmWELCOME_le hc
        split at h
        · cases h
          exact .same _
        · rename_i hmac
          cases h
          exact .byWelcome key half full tail (hV _ (congrArg some (badMAC_false (Bool.eq_false_iff.mpr hmac)))) hn hr
    | data tsn finish body mac =>
      have h' : (if badMAC full mac (.data finish body) tsn then Except.ok (.received agreed key half full tail)
        else .ok (processDATA zombie (if agreed.noEncrypt then { full with noEncrypt := true } else full) key agreed.resume
          none 0 0 tsn finish body mac)) = .ok st := h
      split at h'
      · cases h'
        exact .same _
      · rename_i hmac
        cases h'
        have hv := hV _ (congrArg some (badMAC_false (Bool.eq_false_iff.mpr hmac)))
        exact processDATA_moves fun tail' tsn' asn' => .byData agreed key half full tail tail' tsn' asn' hv
  | established full host resume tail tsn asn =>
    cases packet with
    | corrupt =>
      cases h
      exact .same _
    | fail remote =>
      cases h
      exact .same _
    | noState tail' =>
      have h' : (if tail = none ∨ tail ≠ tail' then Except.ok (.established full host resume tail tsn asn)
        else if zombie then .ok (.established full host resume tail tsn asn) else goSENT args n args.bits none) = .ok st := h
      split at h'
      · cases h'
        exact .same _
      · split at h'
        · cases h'
          exact .same _
        · obtain ⟨half', hmade, rfl⟩ := goSENT_new h'
          exact .start _ hmade id
    | hello remote B Y =>
      cases h
      exact .same _
    | welcome remote B Y mac =>
      cases h
      exact .same _
    | data rtsn finish body mac =>
      cases h
      exact processDATA_moves fun tail' tsn' asn' => .established ..

omit [DecidableEq κ] in
theorem connect_moves {s st : State κ} (h : connect args n s = .ok st) : Moves args n V s st := by
  cases s with
  | closed tail =>
    obtain ⟨half, hmade, rfl⟩ := goSENT_new h
    exact .start _ hmade id
  | sent agreed half tail =>
    cases h
    exact .same _
  | received agreed key half full tail =>
    cases h
    exact .same _
  | established full host resume tail tsn asn =>
    cases h
    exact .same _

omit [DecidableEq κ] in
theorem pull_moves (finish : Bool) (body : Bytes) (s : State κ) : Moves args n V s (pull args finish body s).2 := by
  cases s with
  | closed tail =>
    cases tail with
    | none => exact .same _
    | some tail => exact .same _
  | sent agreed half tail =>
    cases tail with
    | none => exact .same _
    | some tail => exact .sent half _ _ id
  | received agreed key half full tail => exact .received ..
  | established full host resume tail tsn asn => exact .established ..

/-! ## Runs -/

/-- What a half was RECEIVED with. -/
structure Rec (κ : Type) where
  side : Side
  own : Half κ
  remote : Half κ
  suite : Mask
  agreed : Bits

/-- What a half was ESTABLISHED with. -/
structure Est (κ : Type) where
  side : Side
  own : Half κ
  remote : Half κ
  suite : Mask
  noEncrypt : Bool
  resume : Bool

omit [DecidableEq κ]

variable (endpoint : Side → Args κ) (R : List (Rec κ)) (E : List (Est κ))

/-- Established in SENT: the other half was received with ours, and agreed on what we took. -/
structure BySent (e : Est κ) : Prop where
  unused : ∀ r ∈ R, r.own.ephemeral ≠ e.own.ephemeral
  other : ∃ b ∈ R, b.own = e.remote ∧ b.suite = e.suite ∧ b.agreed.noEncrypt = e.noEncrypt ∧ b.agreed.resume = e.resume
  permits : e.noEncrypt = true → (endpoint e.side).bits.noEncrypt = true

/-- Established in RECEIVED by a WELCOME: what the other half agreed on is not stronger. -/
structure ByWelcome (e : Est κ) : Prop where
  received : ∃ a ∈ R, a.side = e.side ∧ a.own = e.own ∧ a.suite = e.suite ∧
    (e.noEncrypt = true → a.agreed.noEncrypt = true) ∧ (e.resume = true → a.agreed.resume = true)
  other : ∃ b ∈ R, b.own = e.remote ∧ b.suite = e.suite ∧ b.agreed.noEncrypt = e.noEncrypt ∧ b.agreed.resume = e.resume

/-- Established in RECEIVED by a DATA: the other half was established before. -/
structure ByData (e : Est κ) : Prop where
  received : ∃ a ∈ R, a.side = e.side ∧ a.own = e.own ∧ a.suite = e.suite ∧
    a.agreed.noEncrypt = e.noEncrypt ∧ a.agreed.resume = e.resume
  other : ∃ e' ∈ E, e'.own = e.remote ∧ e'.suite = e.suite

/-- Why a half was established; `E` are the ones before it. -/
def Reason (e : Est κ) : Prop := BySent endpoint R e ∨ ByWelcome R e ∨ ByData R E e

/-- Every half that was established with an endpoint's half had a reason. -/
def Justified : List (Est κ) → Prop
  | [] => True
  | e :: E => (Honest endpoint e.remote → Reason endpoint R E e) ∧ Justified E

variable {endpoint} {R} {E}

theorem Justified.mem (h : Justified endpoint R E) {e : Est κ} (he : e ∈ E) (hh : Honest endpoint e.remote) :
    ∃ E', (∀ x ∈ E', x ∈ E) ∧ Reason endpoint R E' e := by
  induction E with
  | nil => cases he
  | cons a E ih =>
    rcases List.mem_cons.mp he with rfl | he
    · exact ⟨E, fun x hx => .tail _ hx, h.1 hh⟩
    · obtain ⟨E', hsub, hr⟩ := ih h.2 he
      exact ⟨E', fun x hx => .tail _ (hsub x hx), hr⟩

theorem BySent.grow {e : Est κ} {r : Rec κ} (h : BySent endpoint R e) (hr : e.own.ephemeral ≠ r.own.ephemeral) :
    BySent endpoint (r :: R) e where
  unused x hx := by
    rcases List.mem_cons.mp hx with rfl | hx
    · exact hr.symm
    · exact h.unused x hx
  other := by
    obtain ⟨b, hb, hb'⟩ := h.other
    exact ⟨b, .tail _ hb, hb'⟩
  permits := h.permits

theorem ByWelcome.grow {e : Est κ} {r : Rec κ} (h : ByWelcome R e) : ByWelcome (r :: R) e where
  received := by
    obtain ⟨a, ha, ha'⟩ := h.received
    exact ⟨a, .tail _ ha, ha'⟩
  other := by
    obtain ⟨b, hb, hb'⟩ := h.other
    exact ⟨b, .tail _ hb, hb'⟩

theorem ByData.grow {e : Est κ} {r : Rec κ} (h : ByData R E e) : ByData (r :: R) E e where
  received := by
    obtain ⟨a, ha, ha'⟩ := h.received
    exact ⟨a, .tail _ ha, ha'⟩
  other := h.other

/-- A half that is RECEIVED later has not been established. -/
theorem Justified.grow {r : Rec κ} (h : Justified endpoint R E) (hr : ∀ e ∈ E, e.own.ephemeral ≠ r.own.ephemeral) :
    Justified endpoint (r :: R) E := by
  induction E with
  | nil => trivial
  | cons e E ih =>
    refine ⟨fun hh => ?_, ih h.2 fun x hx => hr x (.tail _ hx)⟩
    rcases h.1 hh with hs | hw | hd
    · exact .inl (hs.grow (hr e (.head _)))
    · exact .inr (.inl hw.grow)
    · exact .inr (.inr hd.grow)

/-- Whatever the reason, encryption is left out only if the endpoint permits it. -/
theorem Reason.permits {e : Est κ} (h : Reason endpoint R E e)
    (hR : ∀ r ∈ R, r.agreed.noEncrypt = true → (endpoint r.side).bits.noEncrypt = true) :
    e.noEncrypt = true → (endpoint e.side).bits.noEncrypt = true := by
  intro hn
  rcases h with hs | hw | hd
  · exact hs.permits hn
  · obtain ⟨a, ha, hside, -, -, hle, -⟩ := hw.received
    exact hside ▸ hR a ha (hle hn)
  · obtain ⟨a, ha, hside, -, -, heq, -⟩ := hd.received
    exact hside ▸ hR a ha (heq.trans hn)

/-- The newest half agrees with the other half of its pair. -/
theorem agree_newest {e e' : Est κ} {E' : List (Est κ)} (hR : (R.map fun r => r.own.ephemeral).Nodup)
    (hE : ((e :: E).map fun e => e.own.ephemeral).Nodup) (h : Reason endpoint R E e)
    (hsub : ∀ x ∈ E', x ∈ E) (h' : Reason endpoint R E' e') (hpair : e'.own = e.remote) (hpair' : e'.remote = e.own) :
    e.suite = e'.suite ∧ e.noEncrypt = e'.noEncrypt ∧ e.resume = e'.resume := by
  have one : ∀ {a b : Rec κ}, a ∈ R → b ∈ R → a.own = b.own → a = b := fun ha hb hab =>
    List.inj_on_of_nodup_map hR ha hb (by rw [hab])
  -- the newest half is not among those before the other one
  have late : ¬ ByData R E' e' := by
    intro hd
    obtain ⟨x, hx, hown, -⟩ := hd.other
    refine (List.nodup_cons.mp hE).1 (List.mem_map.mpr ⟨x, hsub x hx, ?_⟩)
    rw [hown, hpair']
  rcases h with hs | hw | hd
  · obtain ⟨b, hb, hbown, -⟩ := hs.other
    rcases h' with hs' | hw' | hd'
    · exact absurd (by rw [hbown, hpair]) (hs'.unused b hb)
    · obtain ⟨b', hb', hbown', -⟩ := hw'.other
      exact absurd (by rw [hbown', hpair']) (hs.unused b' hb')
    · exact absurd hd' late
  · obtain ⟨b, hb, hbown, -, hbn, hbr⟩ := hw.other
    rcases h' with hs' | hw' | hd'
    · exact absurd (by rw [hbown, hpair]) (hs'.unused b hb)
    · obtain ⟨a, ha, -, haown, hasuite, han, har⟩ := hw.received
      obtain ⟨a', ha', -, haown', -, han', har'⟩ := hw'.received
      obtain ⟨b', hb', hbown', hbsuite', hbn', hbr'⟩ := hw'.other
      have hab : a = b' := one ha hb' (by rw [haown, hbown', hpair'])
      have hba : a' = b := one ha' hb (by rw [haown', hbown, hpair])
      subst hab hba
      refine ⟨hasuite.symm.trans hbsuite', Bool.eq_iff_iff.mpr ⟨fun h => ?_, fun h => ?_⟩,
        Bool.eq_iff_iff.mpr ⟨fun h => ?_, fun h => ?_⟩⟩
      · exact hbn'.symm.trans (han h)
      · exact hbn.symm.trans (han' h)
      · exact hbr'.symm.trans (har h)
      · exact hbr.symm.trans (har' h)
    · exact absurd hd' late
  · obtain ⟨a, ha, -, haown, hasuite, han, har⟩ := hd.received
    have same : ∀ b ∈ R, b.own = e'.remote → b = a := fun b hb hbown => one hb ha (by rw [hbown, hpair', haown])
    rcases h' with hs' | hw' | hd'
    · obtain ⟨b, hb, hbown, hbsuite, hbn, hbr⟩ := hs'.other
      have hba := same b hb hbown
      subst hba
      exact ⟨hasuite.symm.trans hbsuite, han.symm.trans hbn, har.symm.trans hbr⟩
    · obtain ⟨b, hb, hbown, hbsuite, hbn, hbr⟩ := hw'.other
      have hba := same b hb hbown
      subst hba
      exact ⟨hasuite.symm.trans hbsuite, han.symm.trans hbn, har.symm.trans hbr⟩
    · exact absurd hd' late

/-- Two halves that were established with each other agree. -/
theorem agree {e e' : Est κ} (hR : (R.map fun r => r.own.ephemeral).Nodup) (hE : (E.map fun e => e.own.ephemeral).Nodup)
    (hj : Justified endpoint R E) (he : e ∈ E) (he' : e' ∈ E) (hh : Honest endpoint e.remote)
    (hh' : Honest endpoint e'.remote) (hpair : e'.own = e.remote) (hpair' : e'.remote = e.own) :
    e.suite = e'.suite ∧ e.noEncrypt = e'.noEncrypt ∧ e.resume = e'.resume := by
  induction E with
  | nil => cases he
  | cons x E ih =>
    rcases List.mem_cons.mp he with rfl | he1
    · rcases List.mem_cons.mp he' with rfl | he'
      · exact ⟨rfl, rfl, rfl⟩
      · obtain ⟨E', hsub, hr⟩ := hj.2.mem he' hh'
        exact agree_newest hR hE (hj.1 hh) hsub hr hpair hpair'
    · rcases List.mem_cons.mp he' with rfl | he'
      · obtain ⟨E', hsub, hr⟩ := hj.2.mem he1 hh
        obtain ⟨h1, h2, h3⟩ := agree_newest hR hE (hj.1 hh') hsub hr hpair'.symm hpair.symm
        exact ⟨h1.symm, h2.symm, h3.symm⟩
      · exact ih (List.nodup_cons.mp hE).2 hj.2 he1 he'

end BubbleStorm.Cusp.Channel.Handshake
