/-
  BubbleStorm.Cusp.Channel.DatagramProofs — which datagrams a channel survives.

  Parsing, WELCOMEs and the check of a MAC handle whatever they raise. What is left is the
  key computation behind a HELLO, which nothing handles, and the host's own walk over the
  body of a DATA packet. `Valid` carries what the suites of a state are, so that each
  `valOf` finds one.
-/

import BubbleStorm.Cusp.Channel.Datagram

namespace BubbleStorm.Cusp.Channel.Datagram

open BubbleStorm.Cusp (Exn Bytes)
open BubbleStorm.Cusp.Crypto
open BubbleStorm.Lib
open BubbleStorm.Util.Serial
open BubbleStorm.Util.Crypto (Hash)
open Handshake (Bits valOf)
open PacketFormat (DATA)
open Suite (Mask)

variable {F β : Type}

/-! ## Suites -/

theorem mask_cases {m : Mask} (h : m ≤ 3) : m = 0 ∨ m = 1 ∨ m = 2 ∨ m = 3 := by
  have hn : m.toNat ≤ 3 := UInt16.le_iff_toNat_le.mp h
  have hcases : m.toNat = 0 ∨ m.toNat = 1 ∨ m.toNat = 2 ∨ m.toNat = 3 := by omega
  rcases hcases with h | h | h | h
  · exact .inl (UInt16.toNat_inj.mp h)
  · exact .inr (.inl (UInt16.toNat_inj.mp h))
  · exact .inr (.inr (.inl (UInt16.toNat_inj.mp h)))
  · exact .inr (.inr (.inr (UInt16.toNat_inj.mp h)))

theorem intersect_le {a b : Mask} (h : a ≤ 3) : Suite.intersect a b ≤ 3 := by
  rw [UInt16.le_iff_toNat_le] at h ⊢
  unfold Suite.intersect
  rw [UInt16.toNat_and]
  exact Nat.le_trans Nat.and_le_left h

theorem publickey_cheapest {m : Mask} (h : m ≤ 3) (h0 : m ≠ 0) :
    ∃ suite, Suite.PublicKey.cheapest m = .ok (some suite) ∧ publicLength suite = .ok 32 := by
  rcases mask_cases h with rfl | rfl | rfl | rfl
  · exact absurd rfl h0
  · exact ⟨1, rfl, rfl⟩
  · exact ⟨2, rfl, rfl⟩
  · exact ⟨1, rfl, rfl⟩

theorem symmetric_cheapest {m : Mask} (h : m ≤ 3) (h0 : m ≠ 0) :
    ∃ suite n, Suite.Symmetric.cheapest m = .ok (some suite) ∧ symmetricLength suite = .ok n := by
  rcases mask_cases h with rfl | rfl | rfl | rfl
  · exact absurd rfl h0
  · exact ⟨1, 8, rfl, rfl⟩
  · exact ⟨2, 32, rfl, rfl⟩
  · exact ⟨1, 8, rfl, rfl⟩

theorem publicLength_ok {suite : Mask} {n : Nat} (h : publicLength suite = .ok n) : n = 32 := by
  unfold publicLength at h
  split at h
  · cases h
    rfl
  · split at h
    · cases h
      rfl
    · cases h

/-! ## What `parse` accepts -/

/-- The keys of a packet: shares of the length of their suite. -/
structure Parsed (h : Keys) : Prop where
  suite : ∃ suite, Suite.PublicKey.cheapest h.remote.publickey = .ok (some suite) ∧ publicLength suite = .ok 32
  B : Share h.B
  Y : Share h.Y

theorem keys_parsed {packet : Bytes} {remote : Bits} {h : Keys} (hk : keys packet remote = .ok h) : Parsed h := by
  unfold keys at hk
  obtain ⟨o, ho, hk⟩ := bind_eq_ok.mp hk
  obtain ⟨suite, hs, hk⟩ := bind_eq_ok.mp hk
  obtain ⟨n, hn, hk⟩ := bind_eq_ok.mp hk
  obtain ⟨B, hB, hk⟩ := bind_eq_ok.mp hk
  obtain ⟨Y, hY, hk⟩ := bind_eq_ok.mp hk
  obtain ⟨a, -, hk⟩ := bind_eq_ok.mp hk
  obtain ⟨address, -, hk⟩ := bind_eq_ok.mp hk
  cases hk
  have hn32 := publicLength_ok hn
  subst hn32
  obtain ⟨rfl, hBin⟩ := slice_in hB
  obtain ⟨rfl, hYin⟩ := slice_in hY
  cases o with
  | none => cases hs
  | some x =>
    cases hs
    exact ⟨⟨suite, ho, hn⟩, ⟨hBin, rfl, ⟨1, rfl⟩⟩, ⟨hYin, rfl, ⟨5, rfl⟩⟩⟩

/-- The keys a message comes with. -/
def Message.keys? : Message → Option Keys
  | .hello h => some h
  | .welcome h => some h
  | _ => none

theorem parse_parsed {packet : Bytes} {seqs : Int × Int} {h : Keys} (hp : (parse packet seqs).keys? = some h) : Parsed h := by
  unfold parse at hp
  rcases hw : parseWords packet seqs with e | m
  · rw [hw] at hp
    cases hp
  · rw [hw] at hp
    unfold parseWords at hw
    obtain ⟨⟨w1, w2⟩, -, hw⟩ := bind_eq_ok.mp hw
    dsimp only at hw
    split at hw
    · obtain ⟨t, -, hw⟩ := bind_eq_ok.mp hw
      cases hw
      cases hp
    · cases hw
      cases hp
    · obtain ⟨k, hk, hw⟩ := bind_eq_ok.mp hw
      cases hw
      cases hp
      exact keys_parsed hk
    · obtain ⟨k, hk, hw⟩ := bind_eq_ok.mp hw
      cases hw
      cases hp
      exact keys_parsed hk
    · unfold forward at hw
      obtain ⟨s, -, hw⟩ := bind_eq_ok.mp hw
      obtain ⟨a, -, hw⟩ := bind_eq_ok.mp hw
      obtain ⟨s', -, hw⟩ := bind_eq_ok.mp hw
      dsimp only at hw
      split at hw
      · cases hw
      · cases hw
        cases hp
    · cases hw
      cases hp
    · cases hw
      cases hp
    · split at hw
      · cases hw
        cases hp
      · cases hw
        cases hp

/-! ## HELLO -/

variable [DecidableEq F] [Zero F] {C : Curve F} {H : Hash (Point F)} {ciphers : Ciphers} {layers : Layers β} {args : Args F}

variable (C args) in
/-- The half that a HELLO makes the channel compute a key with. -/
def chosen (agreed : Bits) (own : Option (Half F)) (h : Keys) : Option (Half F) :=
  match rekey agreed h.remote own, theirs agreed h.remote with
  | .ok own, .ok (some suite) =>
    let known := args.exist (suite, bytes h.B)
    if Suite.isEmpty (Suite.intersect agreed.publickey h.remote.publickey) ||
      Suite.isEmpty (Suite.intersect agreed.symmetric h.remote.symmetric) then none
    else if known && !h.remote.resume then none
    else (half C args suite own).toOption
  | _, _ => none

variable (C H args) in
/-- If a key is computed, then with shares that the curve does not reject. -/
def Sound (agreed : Bits) (own : Option (Half F)) (h : Keys) : Prop :=
  ∀ z, chosen C args agreed own h = some z → Accepts C H z h.B h.Y

/-- What was agreed on: suites there are, and one of them. -/
structure Within (agreed : Bits) : Prop where
  publickey : agreed.publickey ≤ 3
  symmetric : agreed.symmetric ≤ 3
  some : agreed.publickey ≠ 0

variable (C args) in
omit [DecidableEq F] [Zero F] in
theorem goSENT_ok (bits : Bits) (h : bits.publickey ≤ 3) (h0 : bits.publickey ≠ 0) (own : Option (Half F)) :
    ∃ half, goSENT (β := β) C args bits own = .ok (.sent bits half none) := by
  cases own with
  | some half => exact ⟨half, rfl⟩
  | none =>
    obtain ⟨suite, hs, hn⟩ := publickey_cheapest h h0
    obtain ⟨half, hh⟩ : ∃ half, publickey C args.key args.entropy suite = .ok half := publickey_ok hn
    refine ⟨half, ?_⟩
    unfold goSENT
    simp only [hs]
    show (do return State.sent bits (← publickey C args.key args.entropy suite) none) = _
    rw [hh]
    rfl

omit [DecidableEq F] [Zero F] in
theorem rekey_ok {agreed : Bits} (remote : Bits) {own : Option (Half F)} (h : own ≠ none → Within agreed) :
    ∃ own', rekey agreed remote own = .ok own' := by
  cases own with
  | none => exact ⟨none, rfl⟩
  | some half =>
    have hw := h (by simp)
    obtain ⟨suite, hs, -⟩ := publickey_cheapest hw.publickey hw.some
    refine ⟨if Suite.contains remote.publickey suite then some half else none, ?_⟩
    unfold rekey
    simp only [hs]
    rfl

theorem theirs_ok (agreed : Bits) {h : Keys} (hp : Parsed h) :
    ∃ o, theirs agreed h.remote = .ok o ∧ ∀ suite, o = some suite → publicLength suite = .ok 32 := by
  obtain ⟨suite, hs, hn⟩ := hp.suite
  refine ⟨if Suite.contains agreed.publickey suite then some suite else none, ?_, fun suite' ho => ?_⟩
  · unfold theirs
    rw [hs]
    rfl
  · split at ho
    · cases ho
      exact hn
    · cases ho

omit [DecidableEq F] [Zero F] in
theorem half_ok {suite : Mask} (hs : publicLength suite = .ok 32) (own : Option (Half F)) :
    ∃ z, half C args suite own = .ok z := by
  cases own with
  | some z => exact ⟨z, rfl⟩
  | none => exact publickey_ok hs

theorem isEmpty_eq (m : Mask) : Suite.isEmpty m = true ↔ m = 0 := by
  unfold Suite.isEmpty
  exact beq_iff_eq

theorem processHELLO_iff {agreed : Bits} {own : Option (Half F)} {h : Keys} (hpk : agreed.publickey ≤ 3)
    (hsy : agreed.symmetric ≤ 3) (hown : own ≠ none → Within agreed) (hp : Parsed h) :
    Ok (processHELLO (β := β) C H ciphers args agreed own h) ↔ Sound C H args agreed own h := by
  obtain ⟨own', hrekey⟩ := rekey_ok h.remote hown
  obtain ⟨o, htheirs, hlen⟩ := theirs_ok agreed hp
  unfold processHELLO Sound chosen
  simp only [hrekey, htheirs]
  show Ok (if Suite.isEmpty (Suite.intersect agreed.publickey h.remote.publickey) ||
      Suite.isEmpty (Suite.intersect agreed.symmetric h.remote.symmetric) then pure (State.closed none) else _) ↔ _
  by_cases hempty : (Suite.isEmpty (Suite.intersect agreed.publickey h.remote.publickey) ||
      Suite.isEmpty (Suite.intersect agreed.symmetric h.remote.symmetric)) = true
  · rw [if_pos hempty]
    refine iff_of_true (ok_pure _) fun z hz => ?_
    cases o with
    | none => cases hz
    | some suite =>
      dsimp only at hz
      rw [if_pos hempty] at hz
      cases hz
  · rw [if_neg hempty]
    obtain ⟨hipk, hisy⟩ : Suite.intersect agreed.publickey h.remote.publickey ≠ 0 ∧
        Suite.intersect agreed.symmetric h.remote.symmetric ≠ 0 := by
      rw [Bool.or_eq_true, isEmpty_eq, isEmpty_eq, not_or] at hempty
      exact hempty
    cases o with
    | none =>
      refine iff_of_true ?_ fun z hz => by cases hz
      obtain ⟨z, hz⟩ := goSENT_ok (β := β) C args (intersect agreed h.remote false) (intersect_le hpk) hipk own'
      exact ⟨_, hz⟩
    | some suite =>
      show Ok (if args.exist (suite, bytes h.B) && !h.remote.resume then _ else _) ↔ _
      simp only [if_neg hempty]
      by_cases hknown : (args.exist (suite, bytes h.B) && !h.remote.resume) = true
      · rw [if_pos hknown]
        refine iff_of_true ?_ fun z hz => ?_
        · obtain ⟨z, hz⟩ := goSENT_ok (β := β) C args (intersect agreed h.remote (args.exist (suite, bytes h.B)))
            (intersect_le hpk) hipk own'
          exact ⟨_, hz⟩
        · rw [if_pos hknown] at hz
          cases hz
      · obtain ⟨z, hz⟩ : ∃ z, half C args suite own' = .ok z := half_ok (hlen suite rfl) own'
        obtain ⟨sym, n, hsym, hn⟩ := symmetric_cheapest (intersect_le hsy) hisy
        have hcheap : Suite.Symmetric.cheapest (intersect agreed h.remote (args.exist (suite, bytes h.B))).symmetric =
          .ok (some sym) := hsym
        simp only [if_neg hknown, hz]
        show Ok (Suite.Symmetric.cheapest (intersect agreed h.remote (args.exist (suite, bytes h.B))).symmetric >>= _) ↔ _
        rw [hcheap]
        show Ok (z.symmetric C H ciphers sym h.B h.Y >>= fun full => pure _) ↔ _
        rw [ok_bind_pure, symmetric_iff hn hp.B hp.Y]
        constructor
        · intro hacc z' hz'
          cases hz'
          exact hacc
        · intro hall
          exact hall z rfl

/-! ## DATA -/

/-- The host's walk over the body comes to no segment that is torn. -/
def Takes (host : Host) (text : Bytes) : Prop :=
  ∀ t' data', Stream.HostDispatch.Comes host.st.host ⟨8, text⟩ host.reacts t' data' → ¬ Stream.HostDispatch.Torn data'.bytes

theorem receive_iff {host : Host} {text : Bytes} : Ok (receive host text) ↔ Takes host text := by
  unfold receive
  rw [ok_bind_pure]
  have ha : (⟨8, text⟩ : Stream.Slice).base % 4 = 0 := by
    show 8 % 4 = 0
    decide
  exact Stream.HostDispatch.recvSegments_ok (Stream.HostDispatch.runs_sound host.reach) ha (Nat.le_refl _)

variable (layers) in
/-- The number is not half of all off, and a body that gets through is one the host takes. -/
def Stack.Takes (stack : Stack β) (d : DATA) (text : Bytes) : Prop :=
  Stream.word32 (d.tsn - stack.ack.new.rasn) ≠ 2 ^ 31 ∧
    (DelayedAck.takes stack.ack d.tsn = true → Datagram.Takes (layers.host stack.base d text) text)

theorem stack_iff {stack : Stack β} {d : DATA} {text : Bytes} : Ok (stack.recv layers d text) ↔ stack.Takes layers d text := by
  unfold Stack.recv Stack.Takes
  split
  · rename_i hfar
    exact iff_of_false (not_ok_error _) fun h => h.1 hfar
  · rename_i hnear
    rw [and_iff_right hnear, ← receive_iff]
    split
    · rename_i htakes
      rcases hr : receive (layers.host stack.base d text) text with e | doAck
      · exact iff_of_false (not_ok_error _) fun h => not_ok_error _ (h htakes)
      · exact iff_of_true ⟨_, rfl⟩ fun _ => ⟨_, rfl⟩
    · rename_i htakes
      exact iff_of_true ⟨_, rfl⟩ fun h => absurd h htakes

omit [DecidableEq F] [Zero F] in
theorem ok_leaving {α : Type} {s : State F β} {x : Except Exn α} : Ok (leaving s x) ↔ Ok x := by
  cases x with
  | ok a => exact iff_of_true ⟨a, rfl⟩ ⟨a, rfl⟩
  | error e => exact iff_of_false (not_ok_error _) (not_ok_error _)

variable (layers) in
/-- If the MAC of a DATA packet is right, the packet is one that the layers and the host
    take. -/
def Whole (base : Stack β) (full : Full) (data : Bytes) (d : DATA) : Prop :=
  ∀ text, body full data d.tsn = some text → base.Takes layers d text

omit [DecidableEq F] [Zero F] in
theorem processDATA_iff {base : Stack β} {full : Full} {tail : Bytes} {asn tsn : Int} {data : Bytes} {d : DATA} :
    Ok (processDATA (F := F) layers base full tail asn tsn data d) ↔ Whole layers base full data d := by
  unfold processDATA Whole
  rcases hb : body full data d.tsn with _ | text
  · exact iff_of_true ⟨_, rfl⟩ fun text ht => by cases ht
  · have hwhole : (∀ text', some text = some text' → base.Takes layers d text') ↔ base.Takes layers d text := by
      constructor
      · intro hall
        exact hall text rfl
      · intro htakes text' ht
        cases ht
        exact htakes
    rw [hwhole, ← stack_iff]
    dsimp only
    rcases base.recv layers d text with e | base'
    · exact iff_of_false (not_ok_error _) (not_ok_error _)
    · exact iff_of_true ⟨_, rfl⟩ ⟨_, rfl⟩

/-! ## Runs -/

/-- What sending does to a channel. -/
inductive Pulls : State F β → State F β → Prop
  | closed (noState : Option Bytes) : Pulls (.closed noState) (.closed noState)
  | sent (agreed : Bits) (half : Half F) (noState : Option Bytes) : Pulls (.sent agreed half noState) (.sent agreed half none)
  | received (agreed : Bits) (half : Half F) (full : Full) (key : Mask × Bytes) (tail tail' : Bytes)
      (address : Forms.Address) :
      Pulls (.received agreed half full key tail address) (.received agreed half full key tail' address)
  | established (ack : DelayedAck.T) (base base' : β) (full : Full) (tail tail' : Bytes) (asn tsn : Int) :
      Pulls (.established ⟨ack, base⟩ full tail asn tsn) (.established ⟨(DelayedAck.pull ack).1, base'⟩ full tail' asn (tsn + 1))

variable (C H ciphers layers) in
/-- A channel of an endpoint with one preference; what else the endpoint knows may change
    at any time, and so may what the layers below `DelayedAck` hold. -/
inductive Reach (pref : Preference) : State F β → Prop
  | start : Reach pref (.closed none)
  | connect {s s' : State F β} (args : Args F) : args.bits = pref → Reach pref s → connect C args s = .ok s' → Reach pref s'
  | recv {s s' : State F β} (args : Args F) (data : Bytes) : args.bits = pref → Reach pref s →
      recv C H ciphers layers args s data = .ok s' → Reach pref s'
  | raise {s s' : State F β} (args : Args F) (data : Bytes) (e : Exn) : args.bits = pref → Reach pref s →
      recv C H ciphers layers args s data = .error (e, s') → Reach pref s'
  | pull {s s' : State F β} : Reach pref s → Pulls s s' → Reach pref s'
  | lower {ack : DelayedAck.T} {base : β} (base' : β) {full : Full} {tail : Bytes} {asn tsn : Int} :
      Reach pref (.established ⟨ack, base⟩ full tail asn tsn) → Reach pref (.established ⟨ack, base'⟩ full tail asn tsn)
  | destroy {s : State F β} : Reach pref s → Reach pref (.closed none)

/-- What was agreed on is within the suites there are, and a channel that is not CLOSED has
    a preference to go back to. -/
def Valid (pref : Preference) : State F β → Prop
  | .closed _ => True
  | .sent agreed _ _ => Within agreed ∧ pref.publickey ≠ 0
  | .received agreed _ _ _ _ _ => Within agreed ∧ pref.publickey ≠ 0
  | .established _ _ _ _ _ => pref.publickey ≠ 0

theorem preference_within {pref : Preference} (h : pref.publickey ≠ 0) : Within pref.toBits :=
  ⟨pref.publickey_all, pref.symmetric_all, h⟩

theorem intersect_ne {a b : Mask} (h : Suite.intersect a b ≠ 0) : a ≠ 0 := by
  intro same
  subst same
  exact h (UInt16.zero_and)

omit [DecidableEq F] [Zero F] in
theorem goSENT_state {bits : Bits} {own : Option (Half F)} {s : State F β} (h : goSENT C args bits own = .ok s) :
    ∃ half, s = .sent bits half none := by
  cases own with
  | some half =>
    cases h
    exact ⟨half, rfl⟩
  | none =>
    obtain ⟨o, -, h⟩ := bind_eq_ok.mp h
    obtain ⟨suite, -, h⟩ := bind_eq_ok.mp h
    obtain ⟨half, -, h⟩ := bind_eq_ok.mp h
    cases h
    exact ⟨half, rfl⟩

/-- A HELLO leaves a channel that goes on with a part of what was agreed. -/
theorem processHELLO_valid {pref : Preference} {agreed : Bits} {own : Option (Half F)} {h : Keys} {s : State F β}
    (hpk : agreed.publickey ≤ 3) (hsy : agreed.symmetric ≤ 3) (hpref : agreed.publickey ≠ 0 → pref.publickey ≠ 0)
    (hs : processHELLO C H ciphers args agreed own h = .ok s) : Valid pref s := by
  unfold processHELLO at hs
  obtain ⟨own', -, hs⟩ := bind_eq_ok.mp hs
  obtain ⟨o, -, hs⟩ := bind_eq_ok.mp hs
  dsimp only at hs
  split at hs
  · cases hs
    trivial
  · rename_i hempty
    rw [Bool.or_eq_true, isEmpty_eq, isEmpty_eq, not_or] at hempty
    have hw : ∀ known, Within (intersect agreed h.remote known) := fun known =>
      ⟨intersect_le hpk, intersect_le hsy, hempty.1⟩
    have hp := hpref (intersect_ne hempty.1)
    split at hs
    · obtain ⟨half, rfl⟩ := goSENT_state hs
      exact ⟨hw _, hp⟩
    · split at hs
      · obtain ⟨half, rfl⟩ := goSENT_state hs
        exact ⟨hw _, hp⟩
      · obtain ⟨half, -, hs⟩ := bind_eq_ok.mp hs
        obtain ⟨sym, -, hs⟩ := bind_eq_ok.mp hs
        obtain ⟨sym', -, hs⟩ := bind_eq_ok.mp hs
        obtain ⟨full, -, hs⟩ := bind_eq_ok.mp hs
        cases hs
        exact ⟨hw _, hp⟩

omit [DecidableEq F] [Zero F] in
theorem settle_valid {pref : Preference} (hp : pref.publickey ≠ 0) (base : Stack β) (full : Full) (tail : Bytes) (tsn rtsn : Int)
    (finish : Bool) (data : Bytes) : Valid pref (settle (F := F) layers base full tail tsn rtsn finish data) := by
  unfold settle
  split
  · trivial
  · exact hp

/-- What a computation leaves behind, whether it raises or not. -/
def left {ε σ : Type} : Except (ε × σ) σ → σ
  | .ok s => s
  | .error e => e.2

omit [DecidableEq F] [Zero F] in
theorem leaving_valid {pref : Preference} {s : State F β} {x : Except Exn (State F β)} (h : Valid pref s)
    (hx : ∀ s', x = .ok s' → Valid pref s') : Valid pref (left (leaving s x)) := by
  cases x with
  | ok s' => exact hx s' rfl
  | error e => exact h

omit [DecidableEq F] [Zero F] in
theorem processDATA_valid {pref : Preference} (hp : pref.publickey ≠ 0) {base : Stack β} {full : Full} {tail : Bytes} {asn tsn : Int}
    {data : Bytes} {d : DATA} : Valid pref (left (processDATA (F := F) layers base full tail asn tsn data d)) := by
  unfold processDATA
  split
  · exact hp
  · rename_i text _
    rcases base.recv layers d text with ⟨e, base'⟩ | base'
    · exact settle_valid hp ..
    · exact settle_valid hp ..

theorem acceptWELCOME_valid {pref : Preference} (hp : pref.publickey ≠ 0) {agreed : Bits} {own : Half F} {data : Bytes}
    {w : Keys} {s : State F β} (h : acceptWELCOME C H ciphers layers own agreed data w = .ok s) : Valid pref s := by
  unfold acceptWELCOME at h
  obtain ⟨confirmed, -, h⟩ := bind_eq_ok.mp h
  split at h
  · cases h
  · obtain ⟨o, -, h⟩ := bind_eq_ok.mp h
    obtain ⟨rp, -, h⟩ := bind_eq_ok.mp h
    obtain ⟨o', -, h⟩ := bind_eq_ok.mp h
    obtain ⟨rs, -, h⟩ := bind_eq_ok.mp h
    obtain ⟨full, -, h⟩ := bind_eq_ok.mp h
    split at h
    · cases h
    · cases h
      exact hp

omit [DecidableEq F] [Zero F] in
/-- Going back to SENT with the endpoint's own preference. -/
theorem goSENT_valid {pref : Preference} (hb : args.bits = pref) (hp : pref.publickey ≠ 0) {s : State F β}
    (h : goSENT C args args.bits.toBits none = .ok s) : Valid pref s := by
  obtain ⟨half, rfl⟩ := goSENT_state h
  subst hb
  exact ⟨preference_within hp, hp⟩

/-- A datagram leaves a valid channel valid. -/
theorem recv_valid {pref : Preference} (hb : args.bits = pref) {s : State F β} (h : Valid pref s) (data : Bytes) :
    Valid pref (left (recv C H ciphers layers args s data)) := by
  unfold recv
  split
  · exact h
  · exact h
  · exact h
  · exact h
  · trivial
  · trivial
  · subst hb
    exact leaving_valid h fun s' hs => processHELLO_valid args.bits.publickey_all args.bits.symmetric_all id hs
  · trivial
  · trivial
  · exact h
  · exact h
  · exact leaving_valid h fun s' hs => processHELLO_valid h.1.publickey h.1.symmetric (fun _ => h.2) hs
  · rename_i agreed half _ w _
    unfold processWELCOME
    rcases hs : acceptWELCOME C H ciphers layers half agreed data w with e | s'
    · exact h
    · exact acceptWELCOME_valid h.2 hs
  · exact h
  · split
    · exact h
    · exact leaving_valid h fun s' hs => goSENT_valid hb h.2 hs
  · exact h
  · exact h
  · rename_i agreed _ _ _ _ _ w _
    rcases Handshake.confirmWELCOME agreed w.remote with e | confirmed
    · exact h
    · show Valid pref (left (if !confirmed then _ else _))
      split
      · exact h
      · split
        · exact h
        · exact h.2
  · split
    · exact h
    · exact processDATA_valid h.2
  · split
    · exact h
    · split
      · exact h
      · exact leaving_valid h fun s' hs => goSENT_valid hb h hs
  · exact h
  · exact h
  · exact h
  · exact processDATA_valid h

omit [DecidableEq F] [Zero F] in
theorem connect_valid {pref : Preference} (hb : args.bits = pref) {s s' : State F β} (h : Valid pref s)
    (hs : connect C args s = .ok s') : Valid pref s' := by
  cases s with
  | closed noState =>
    have hs' : goSENT C args args.bits.toBits none = .ok s' := hs
    refine goSENT_valid hb (fun h0 => ?_) hs'
    -- without a suite there is no first one
    subst hb
    obtain ⟨o, ho, hs'⟩ := bind_eq_ok.mp hs'
    rw [h0] at ho
    cases ho
    obtain ⟨suite, hsuite, -⟩ := bind_eq_ok.mp hs'
    cases hsuite
  | sent agreed half noState =>
    cases hs
    exact h
  | received agreed half full key tail address =>
    cases hs
    exact h
  | established base full tail asn tsn =>
    cases hs
    exact h

theorem reach_valid {pref : Preference} {s : State F β} (h : Reach C H ciphers layers pref s) : Valid pref s := by
  induction h with
  | start => trivial
  | connect args hb _ hs ih => exact connect_valid hb ih hs
  | recv args data hb _ hs ih =>
    have hv : Valid pref (left (recv C H ciphers layers args _ data)) := recv_valid hb ih data
    rw [hs] at hv
    exact hv
  | raise args data e hb _ hs ih =>
    have hv : Valid pref (left (recv C H ciphers layers args _ data)) := recv_valid hb ih data
    rw [hs] at hv
    exact hv
  | pull _ hp ih =>
    cases hp with
    | closed => trivial
    | sent => exact ih
    | received => exact ih
    | established => exact ih
  | lower base' _ ih => exact ih
  | destroy _ _ => trivial

/-! ## Every datagram -/

variable (C H layers args) in
/-- A HELLO whose key is computed has shares the curve takes, and a DATA packet whose MAC
    is right is one that the layers and the host take. -/
def Harmless (state : State F β) (data : Bytes) : Prop :=
  match state, parse data (seqs state) with
  | .closed _, .hello h => Sound C H args args.bits.toBits none h
  | .sent agreed half _, .hello h => Sound C H args agreed (some half) h
  | .received agreed _ full key _ _, .data d => badMAC full data d.tsn = false →
    Whole layers ⟨DelayedAck.new, layers.new key agreed.resume false⟩ (agreedFull full agreed.noEncrypt) data d
  | .established base full _ _ _, .data d => Whole layers base full data d
  | _, _ => True

theorem confirmWELCOME_ok {agreed : Bits} {h : Keys} (ha : Within agreed) (hp : Parsed h) :
    ∃ b, Handshake.confirmWELCOME agreed h.remote = .ok b := by
  obtain ⟨rp, hrp, -⟩ := hp.suite
  obtain ⟨sp, hsp, -⟩ := publickey_cheapest ha.publickey ha.some
  unfold Handshake.confirmWELCOME
  simp only [hrp, hsp]
  split
  · exact ⟨_, rfl⟩
  · split
    · exact ⟨_, rfl⟩
    · split
      · exact ⟨_, rfl⟩
      · exact ⟨_, rfl⟩

/-- The coordinates of a point by its first byte; no sum comes out. -/
def byteCurve : Curve Nat where
  generator := ⟨9, 0⟩
  load := fun v => ⟨(v.headD 0).toNat, 0⟩
  chord := fun M _ => M
  rawPower := fun B _ _ => B

def zeroHash : Hash (Point Nat) := ⟨fun n _ _ => List.replicate n 0, fun _ _ _ => List.length_replicate⟩

def zeroCiphers : Ciphers :=
  ⟨fun _ => 0, fun _ _ => List.replicate 16 0, fun _ _ => List.length_replicate, fun _ nonce _ => nonce⟩

/-- The host has no stream yet. -/
def newHost : Layers Unit :=
  ⟨fun _ _ _ => (), fun _ _ _ => ⟨fun _ => true, _, .start, []⟩, fun _ _ _ => (), fun _ => false⟩

/-- An endpoint with the suites that are set if nothing else is asked for. -/
def defaults : Args Nat where
  key := ⟨0, 8, ⟨9, 0⟩⟩
  bits := ⟨⟨2, 2, false, false⟩, by decide, by decide⟩
  entropy := fun n => ⟨List.replicate n 0, List.length_replicate⟩
  exist := fun _ => false
  haveICMP := true

/-- A HELLO with the shares `B` and `Y`. -/
def hello (B Y : UInt8) : Bytes :=
  [0x20, 0, 0, 0, 0, 2, 0, 2] ++ (B :: List.replicate 31 0) ++ (Y :: List.replicate 31 0) ++ [0, 0, 0, 0, 0, 0]

end BubbleStorm.Cusp.Channel.Datagram
