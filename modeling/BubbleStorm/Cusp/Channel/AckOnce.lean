/-
  BubbleStorm.Cusp.Channel.AckOnce — every packet's callback is fired once
  (see `BubbleStorm.Cusp.Channel.FastRetransmit`).

  A packet that was sent is pending or its callback was fired, never both (`Inv.split`):
  it is in the queue, held by a `loop`, or `destroy` has still to fire it. This is so as
  long as no callback destroys while a packet is pending: `destroy` leaves the queue as it
  is, so the call it interrupts fires again what `destroy` has fired, and what a `loop`
  holds is never fired (`destroy_fires_twice`).
-/

import Mathlib.Data.List.Perm.Basic
import Mathlib.Data.List.Nodup
import Mathlib.Data.List.Pairwise
import BubbleStorm.Cusp.Channel.FastRetransmit

namespace BubbleStorm.Cusp.Channel.FastRetransmit

open List (append_assoc cons_ne_nil map_append map_cons map_nil mem_append mem_cons mem_cons_of_mem mem_cons_self mem_singleton not_mem_nil)

/-! ## Sequence numbers -/

theorem b31_iff (x : BitVec 32) : b31 x = true ↔ 2 ^ 31 ≤ x.toNat := by
  have htwo : (0x80000000#32) = BitVec.twoPow 32 31 := rfl
  have hmsb : x.msb = decide (2 ^ 31 ≤ x.toNat) := BitVec.msb_eq_decide x
  unfold b31
  rw [htwo, BitVec.and_twoPow, decide_eq_true_eq]
  have hlsb : x.getLsbD 31 = x.msb := by
    rw [BitVec.msb_eq_getLsbD_last]
  rw [hlsb, hmsb]
  by_cases h : 2 ^ 31 ≤ x.toNat
  · simp [h]
  · simp [h]

/-- The packets an acknowledgement covers. -/
def Covers (a : BitVec 32 × Nat) (n : Nat) : Prop := (a.1 - BitVec.ofNat 32 n).toNat ≤ a.2

theorem covers_of {asn : BitVec 32} {acklen n : Nat} (ha : acklen < 2 ^ 31) (h1 : b31 (asn - BitVec.ofNat 32 n) = false)
    (h2 : b31 (BitVec.ofNat 32 n - asn + BitVec.ofNat 32 acklen) = false) : Covers (asn, acklen) n := by
  have h1' : ¬ 2 ^ 31 ≤ (asn - BitVec.ofNat 32 n).toNat := by
    rw [← b31_iff, h1]
    exact Bool.false_ne_true
  have h2' : ¬ 2 ^ 31 ≤ (BitVec.ofNat 32 n - asn + BitVec.ofNat 32 acklen).toNat := by
    rw [← b31_iff, h2]
    exact Bool.false_ne_true
  show (asn - BitVec.ofNat 32 n).toNat ≤ acklen
  generalize BitVec.ofNat 32 n = x at h1' h2' ⊢
  have hb : (BitVec.ofNat 32 acklen).toNat = acklen := by
    rw [BitVec.toNat_ofNat]
    exact Nat.mod_eq_of_lt (by omega)
  generalize BitVec.ofNat 32 acklen = y at h2' hb
  bv_omega

/-! ## What is pending -/

/-- What `destroy` has still to fire. -/
def apps : List Frame → List Record
  | [] => []
  | .app l :: rest => l ++ apps rest
  | _ :: rest => apps rest

/-- A `loop` is part of a `recv`, which schedules the timer when it is over. -/
def Nested : List Frame → Prop
  | [] => True
  | .loop _ _ :: rest => .scheduleAt ∈ rest ∧ Nested rest
  | _ :: rest => Nested rest

/-- Only `destroy` and its callbacks are running. -/
def Calm (stack : List Frame) : Prop := ∀ f ∈ stack, (∃ acts, f = .callback acts) ∨ ∃ l, f = .app l

def pending (t : T) : List Record := (if t.destroyed then [] else held t.stack ++ t.queue) ++ apps t.stack

structure Inv (t : T) : Prop where
  split : t.sent.Perm (t.fired.map (·.1) ++ (pending t).map (·.seq))
  nodup : t.sent.Nodup
  below : ∀ n ∈ t.sent, n < t.tsn
  ordered : ((held t.stack ++ t.queue).map (·.seq)).Pairwise (· < ·)
  live : t.destroyed = false → apps t.stack = []
  dead : t.destroyed = true → held t.stack = [] ∧ t.expiry = none ∧ (t.queue = [] ∨ Calm t.stack)
  nested : Nested t.stack
  timer : t.expiry ≠ none → t.queue ≠ [] ∨ .scheduleAt ∈ t.stack
  loops : ∀ asn acklen, .loop asn acklen ∈ t.stack → (asn, acklen) ∈ t.acks ∧ acklen < 2 ^ 31
  acked : ∀ n, (n, .ACK) ∈ t.fired → ∃ a ∈ t.acks, Covers a n
  failed : t.failed = false

variable {t : T} {rest : List Frame}

theorem Calm.tail {f : Frame} (h : Calm (f :: rest)) : Calm rest := fun g hg => h g (mem_cons_of_mem _ hg)

theorem pending_live (hd : t.destroyed = false) (ha : apps t.stack = []) : pending t = held t.stack ++ t.queue := by
  simp [pending, hd, ha]

theorem pending_dead (hd : t.destroyed = true) : pending t = apps t.stack := by
  simp [pending, hd]

/-! ## Steps -/

/-- A call that is over, or goes over to others, without touching a packet. -/
theorem inv_stack (h : Inv t) (stack : List Frame) (tsn : Nat) (expiry : Option Time) (rtt now : Time) (htsn : t.tsn ≤ tsn)
    (hheld : held stack = held t.stack) (happs : apps stack = apps t.stack) (hnested : Nested stack)
    (hcalm : Calm t.stack → Calm stack) (htimer : expiry ≠ none → t.queue ≠ [] ∨ .scheduleAt ∈ stack)
    (hexpiry : t.destroyed = true → expiry = none) (hloops : ∀ asn acklen, .loop asn acklen ∈ stack → .loop asn acklen ∈ t.stack) :
    Inv { t with stack := stack, tsn := tsn, expiry := expiry, rtt := rtt, now := now } := by
  refine ⟨?_, h.nodup, fun n hn => Nat.lt_of_lt_of_le (h.below n hn) htsn, ?_, fun hd => ?_, fun hd => ?_, hnested, htimer,
    fun asn acklen hl => h.loops asn acklen (hloops asn acklen hl), h.acked, h.failed⟩
  · have hsplit := h.split
    unfold pending at hsplit ⊢
    dsimp only
    rw [hheld, happs]
    exact hsplit
  · dsimp only
    rw [hheld]
    exact h.ordered
  · dsimp only
    rw [happs]
    exact h.live hd
  · obtain ⟨h1, -, h3⟩ := h.dead hd
    exact ⟨hheld.trans h1, hexpiry hd, h3.imp_right hcalm⟩

/-- The packet at the head of the queue has its callback fired. -/
theorem inv_fire (h : Inv t) {r : Record} {queue : List Record} (hq : t.queue = r :: queue) (hd : t.destroyed = false)
    (stack : List Frame) (status : Status) (acts : List Act) (expiry : Option Time) (hheld : held stack = held t.stack)
    (happs : apps stack = []) (hnested : Nested stack) (hsched : .scheduleAt ∈ stack)
    (hloops : ∀ asn acklen, .loop asn acklen ∈ stack → .loop asn acklen ∈ t.stack)
    (hack : status = .ACK → ∃ a ∈ t.acks, Covers a r.seq) :
    Inv (fire { t with queue := queue, expiry := expiry } r status acts stack) := by
  have hsplit := h.split
  have hord := h.ordered
  rw [pending_live hd (h.live hd), hq] at hsplit
  rw [hq] at hord
  have happs' : apps (fire { t with queue := queue, expiry := expiry } r status acts stack).stack = [] := happs
  refine ⟨?_, h.nodup, h.below, ?_, fun _ => happs', fun hdead => ?_, hnested, fun _ => .inr (mem_cons_of_mem _ hsched),
    fun asn acklen hl => ?_, fun n hn => ?_, h.failed⟩
  · have hp := pending_live (t := fire { t with queue := queue, expiry := expiry } r status acts stack) hd happs'
    rw [hp]
    show t.sent.Perm ((t.fired ++ [(r.seq, status)]).map (·.1) ++ ((held stack ++ queue).map (·.seq)))
    rw [hheld]
    refine hsplit.trans ?_
    simp only [map_append, map_cons, map_nil, append_assoc]
    exact (List.perm_middle (a := r.seq)).append_left _
  · show ((held stack ++ queue).map (·.seq)).Pairwise (· < ·)
    rw [hheld]
    exact hord.sublist (((List.sublist_cons_self r queue).append_left _).map _)
  · have hdead : t.destroyed = true := hdead
    rw [hd] at hdead
    cases hdead
  · obtain hl | hl := List.mem_cons.mp hl
    · cases hl
    · exact h.loops asn acklen (hloops asn acklen hl)
  · obtain hn | hn := List.mem_append.mp hn
    · exact h.acked n hn
    · rw [mem_singleton, Prod.mk.injEq] at hn
      obtain ⟨rfl, hs⟩ := hn
      exact hack hs.symm

/-- A packet that `destroy` fires. -/
theorem inv_app (h : Inv t) {r : Record} {l : List Record} (hs : t.stack = .app (r :: l) :: rest) (acts : List Act) :
    Inv (fire t r .TIMEOUT acts (.app l :: rest)) := by
  have hd : t.destroyed = true := by
    by_contra hd
    rw [Bool.not_eq_true] at hd
    have := h.live hd
    rw [hs] at this
    cases this
  have hsplit := h.split
  have hord := h.ordered
  have hnested := h.nested
  obtain ⟨hheld, hexp, hquiet⟩ := h.dead hd
  rw [pending_dead hd] at hsplit
  rw [hs] at hsplit hord hnested hheld hquiet
  refine ⟨?_, h.nodup, h.below, hord, fun hlive => ?_, fun _ => ⟨hheld, hexp, hquiet.imp_right fun hc => ?_⟩, hnested,
    fun hne => absurd hexp hne, fun asn acklen hl => ?_, fun n hn => ?_, h.failed⟩
  · have hp := pending_dead (t := fire t r .TIMEOUT acts (.app l :: rest)) hd
    rw [hp]
    show t.sent.Perm ((t.fired ++ [(r.seq, Status.TIMEOUT)]).map (·.1) ++ ((l ++ apps rest).map (·.seq)))
    refine hsplit.trans ?_
    simp only [apps, map_append, map_cons, map_nil, append_assoc, List.cons_append, List.nil_append]
    exact List.Perm.refl _
  · have hlive : t.destroyed = false := hlive
    rw [hd] at hlive
    cases hlive
  · intro f hf
    obtain rfl | hf := List.mem_cons.mp hf
    · exact .inl ⟨acts, rfl⟩
    · obtain rfl | hf := List.mem_cons.mp hf
      · exact .inr ⟨l, rfl⟩
      · exact hc.tail f hf
  · refine h.loops asn acklen ?_
    rw [hs]
    obtain hl | hl := List.mem_cons.mp hl
    · cases hl
    · obtain hl | hl := List.mem_cons.mp hl
      · cases hl
      · exact mem_cons_of_mem _ hl
  · obtain hn | hn := List.mem_append.mp hn
    · exact h.acked n hn
    · rw [mem_singleton, Prod.mk.injEq] at hn
      cases hn.2

/-- A packet is sent. -/
theorem inv_send (h : Inv t) (hd : t.destroyed = false) :
    Inv (act t (.pull true) [] t.stack) := by
  have happs := h.live hd
  have hsplit := h.split
  rw [pending_live hd happs] at hsplit
  have hnew : t.tsn ∉ t.sent := fun hn => Nat.lt_irrefl _ (h.below _ hn)
  refine ⟨?_, ?_, fun n hn => ?_, ?_, fun _ => happs, fun hdead => ?_, h.nested, fun _ => .inr mem_cons_self,
    fun asn acklen hl => ?_, h.acked, h.failed⟩
  · rw [pending_live (t := act t (.pull true) [] t.stack) hd happs]
    show (t.sent ++ [t.tsn]).Perm (t.fired.map (·.1) ++ (held t.stack ++ (t.queue ++ [(⟨t.tsn, t.now, t.rtt⟩ : Record)])).map (·.seq))
    rw [← append_assoc, map_append, ← append_assoc]
    exact hsplit.append_right _
  · exact List.nodup_append.mpr ⟨h.nodup, List.nodup_singleton _, fun a ha b hb => by
      rw [mem_singleton] at hb
      exact fun heq => hnew (hb ▸ heq ▸ ha)⟩
  · show n < t.tsn + 1
    obtain hn | hn := List.mem_append.mp hn
    · exact Nat.lt_succ_of_lt (h.below n hn)
    · rw [List.mem_singleton.mp hn]
      exact Nat.lt_succ_self _
  · show ((held t.stack ++ (t.queue ++ [(⟨t.tsn, t.now, t.rtt⟩ : Record)])).map (·.seq)).Pairwise (· < ·)
    rw [← append_assoc, map_append, List.pairwise_append]
    refine ⟨h.ordered, List.pairwise_singleton _ _, fun a ha b hb => ?_⟩
    rw [List.map_singleton, mem_singleton] at hb
    rw [hb]
    exact h.below a (hsplit.mem_iff.mpr (List.mem_append_right _ ha))
  · have hdead : t.destroyed = true := hdead
    rw [hd] at hdead
    cases hdead
  · obtain hl | hl := List.mem_cons.mp hl
    · cases hl
    · exact h.loops asn acklen hl

/-- All is destroyed, with no call in the middle of the queue. -/
theorem inv_destroy (h : Inv t) (hd : t.destroyed = false) (hheld : held t.stack = []) (hquiet : t.queue = [] ∨ t.stack = [])
    (acts : List Act) : Inv (act t .destroy acts t.stack) := by
  have happs := h.live hd
  have hsplit := h.split
  rw [pending_live hd happs, hheld, List.nil_append] at hsplit
  refine ⟨?_, h.nodup, h.below, h.ordered, fun hlive => Bool.noConfusion hlive, fun _ => ⟨hheld, rfl, ?_⟩, h.nested,
    fun hne => absurd rfl hne, fun asn acklen hl => ?_, h.acked, h.failed⟩
  · rw [pending_dead (t := act t .destroy acts t.stack) rfl]
    show t.sent.Perm (t.fired.map (·.1) ++ (t.queue ++ apps t.stack).map (·.seq))
    rw [happs, List.append_nil]
    exact hsplit
  · refine hquiet.imp_right fun hnil f hf => ?_
    have hf : f ∈ Frame.app t.queue :: t.stack := hf
    rw [hnil, mem_singleton] at hf
    exact .inr ⟨_, hf⟩
  · obtain hl | hl := List.mem_cons.mp hl
    · cases hl
    · exact h.loops asn acklen hl

/-- A call that is over. -/
theorem inv_pop (h : Inv t) {f : Frame} (hs : t.stack = f :: rest) (hheld : held (f :: rest) = held rest)
    (happs : apps (f :: rest) = apps rest) (hf : f ≠ .scheduleAt) (rtt : Time) : Inv { t with stack := rest, rtt := rtt } := by
  have hnested := h.nested
  have htimer := h.timer
  rw [hs] at hnested htimer
  refine inv_stack h rest t.tsn t.expiry rtt t.now (Nat.le_refl _) ?_ ?_ ?_ (fun hc => ?_) (fun hne => ?_)
    (fun hd => (h.dead hd).2.1) fun asn acklen hl => ?_
  · rw [hs, hheld]
  · rw [hs, happs]
  · cases f with
    | loop asn acklen => exact hnested.2
    | callback acts => exact hnested
    | pushFront r => exact hnested
    | updateRTT r => exact hnested
    | scheduleAt => exact hnested
    | app l => exact hnested
  · rw [hs] at hc
    exact hc.tail
  · obtain hq | hmem := htimer hne
    · exact .inl hq
    · exact .inr ((List.mem_cons.mp hmem).resolve_left (Ne.symm hf))
  · rw [hs]
    exact mem_cons_of_mem _ hl

/-- While a `recv` or the timer is at work nothing is destroyed, or nothing is pending. -/
theorem live_of (h : Inv t) {f : Frame} (hf : f ∈ t.stack) (hcall : ∀ acts, f ≠ .callback acts) (happ : ∀ l, f ≠ .app l)
    (hq : t.queue ≠ []) : t.destroyed = false := by
  by_contra hd
  rw [Bool.not_eq_false] at hd
  obtain ⟨-, -, hnil | hc⟩ := h.dead hd
  · exact hq hnil
  · obtain ⟨acts, heq⟩ | ⟨l, heq⟩ := hc f hf
    · exact hcall acts heq
    · exact happ l heq

theorem inv_loop (h : Inv t) {asn : BitVec 32} {acklen : Nat} (hs : t.stack = .loop asn acklen :: rest) (acts : List Act) :
    Inv (loop t asn acklen acts rest) := by
  have hpop : Inv { t with stack := rest } := inv_pop h hs rfl rfl (fun heq => by cases heq) t.rtt
  have hnested := h.nested
  have hloops := h.loops asn acklen (by rw [hs]; exact mem_cons_self)
  rw [hs] at hnested
  unfold loop
  dsimp only
  cases hq : t.queue with
  | nil => simpa [hq] using hpop
  | cons r queue =>
    have hd := live_of h (f := .loop asn acklen) (by rw [hs]; exact mem_cons_self) (fun _ heq => by cases heq)
      (fun _ heq => by cases heq) (by rw [hq]; exact cons_ne_nil _ _)
    have happs := h.live hd
    rw [hs] at happs
    -- what the callback leaves to do
    have hfired : ∀ status, (status = .ACK → ∃ a ∈ t.acks, Covers a r.seq) →
        Inv (fire { t with queue := queue } r status acts (.updateRTT r :: .loop asn acklen :: rest)) := by
      intro status hack
      refine inv_fire h hq hd _ status acts t.expiry ?_ happs ⟨hnested.1, hnested.2⟩ ?_ (fun a b hl => ?_) hack
      · rw [hs]
        rfl
      · exact mem_cons_of_mem _ (mem_cons_of_mem _ hnested.1)
      · rw [hs]
        exact (List.mem_cons.mp hl).resolve_left fun heq => by cases heq
    dsimp only
    by_cases h1 : b31 (asn - BitVec.ofNat 32 r.seq) = true
    · rw [if_pos h1]
      simpa [hq] using hpop
    · rw [if_neg h1]
      rw [Bool.not_eq_true] at h1
      by_cases h2 : b31 (BitVec.ofNat 32 r.seq - asn + BitVec.ofNat 32 acklen) = true
      · have h2' : ¬ (!b31 (BitVec.ofNat 32 r.seq - asn + BitVec.ofNat 32 acklen)) = true := by simp [h2]
        rw [if_neg h2']
        split
        · exact hfired .MISSING fun heq => by cases heq
        · have htimer := h.timer
          refine ⟨?_, h.nodup, h.below, ?_, fun _ => happs, fun hdead => ?_, ⟨mem_cons_of_mem _ hnested.1, hnested.2⟩,
            fun _ => .inr (mem_cons_of_mem _ (mem_cons_of_mem _ hnested.1)), fun a b hl => ?_, h.acked, h.failed⟩
          · have hsplit := h.split
            rw [pending_live hd (h.live hd), hs, hq] at hsplit
            have hp := pending_live (t := { t with queue := queue, stack := .loop asn acklen :: .pushFront r :: rest }) hd happs
            rw [hp]
            show t.sent.Perm (t.fired.map (·.1) ++ (held rest ++ [r] ++ queue).map (·.seq))
            rw [append_assoc]
            exact hsplit
          · have hord := h.ordered
            rw [hs, hq] at hord
            show ((held rest ++ [r] ++ queue).map (·.seq)).Pairwise (· < ·)
            rw [append_assoc]
            exact hord
          · have hdead : t.destroyed = true := hdead
            rw [hd] at hdead
            cases hdead
          · refine h.loops a b ?_
            rw [hs]
            obtain hl | hl := List.mem_cons.mp hl
            · rw [hl]
              exact mem_cons_self
            · exact mem_cons_of_mem _ ((List.mem_cons.mp hl).resolve_left fun heq => by cases heq)
      · rw [Bool.not_eq_true] at h2
        rw [h2]
        exact hfired .ACK fun _ => ⟨_, hloops.1, covers_of hloops.2 h1 h2⟩

/-- The timer's turn: the head of the queue has expired. -/
theorem inv_timeout (h : Inv t) (stack : List Frame) (hq : t.queue ≠ []) (hd : t.destroyed = false)
    (hheld : held stack = held t.stack) (hnested : Nested stack) (happs : apps stack = [])
    (hloops : ∀ asn acklen, .loop asn acklen ∈ stack → .loop asn acklen ∈ t.stack) (acts : List Act) (expiry : Option Time) :
    Inv (timeout { t with expiry := expiry } acts stack) := by
  unfold timeout
  cases hcase : t.queue with
  | nil => exact absurd hcase hq
  | cons r queue =>
    refine inv_fire h hcase hd _ .TIMEOUT acts expiry hheld happs hnested ?_ (fun asn acklen hl => ?_) fun heq => by cases heq
    · exact mem_cons_of_mem _ mem_cons_self
    · refine hloops asn acklen ?_
      obtain hl | hl := List.mem_cons.mp hl
      · cases hl
      · exact (List.mem_cons.mp hl).resolve_left fun heq => by cases heq

theorem inv_schedule (h : Inv t) (hs : t.stack = .scheduleAt :: rest) (acts : List Act) : Inv (scheduleAt t acts rest) := by
  have hnested := h.nested
  rw [hs] at hnested
  have hcalm : Calm t.stack → Calm rest := fun hc => by
    rw [hs] at hc
    exact hc.tail
  have hloops : ∀ asn acklen, .loop asn acklen ∈ rest → .loop asn acklen ∈ t.stack := fun asn acklen hl => by
    rw [hs]
    exact mem_cons_of_mem _ hl
  have hheld : held rest = held t.stack := by rw [hs]; rfl
  have happs : apps rest = apps t.stack := by rw [hs]; rfl
  unfold scheduleAt
  cases hq : t.queue with
  | nil =>
    have hidle := inv_stack h rest t.tsn none t.rtt t.now (Nat.le_refl _) hheld happs hnested hcalm (fun hne => absurd rfl hne)
      (fun _ => rfl) hloops
    rwa [hq] at hidle
  | cons r queue =>
    have hne : t.queue ≠ [] := by rw [hq]; exact cons_ne_nil _ _
    have hd := live_of h (f := .scheduleAt) (by rw [hs]; exact mem_cons_self) (fun _ heq => by cases heq)
      (fun _ heq => by cases heq) hne
    dsimp only
    split
    · exact inv_timeout h rest hne hd hheld hnested (happs.trans (h.live hd)) hloops acts t.expiry
    · have hset := inv_stack h rest t.tsn (some (t.rtt + t.rtt / 2 + jitter + r.sent)) t.rtt t.now (Nat.le_refl _) hheld happs
        hnested hcalm (fun _ => .inl hne) (fun hdead => Bool.noConfusion (hd.symm.trans hdead)) hloops
      rwa [hq] at hset

theorem inv_pushFront (h : Inv t) {r : Record} (hs : t.stack = .pushFront r :: rest) :
    Inv { t with queue := r :: t.queue, stack := rest } := by
  have hd : t.destroyed = false := by
    by_contra hd
    rw [Bool.not_eq_false] at hd
    have := (h.dead hd).1
    rw [hs] at this
    simp [held] at this
  have happs := h.live hd
  have hsplit := h.split
  have hord := h.ordered
  have hnested := h.nested
  rw [pending_live hd happs] at hsplit
  rw [hs] at happs hsplit hord hnested
  have hshift : held (.pushFront r :: rest) ++ t.queue = held rest ++ r :: t.queue := by
    rw [held, append_assoc]
    rfl
  rw [hshift] at hsplit hord
  refine ⟨?_, h.nodup, h.below, hord, fun _ => happs, fun hdead => ?_, hnested, fun _ => .inl (cons_ne_nil _ _),
    fun asn acklen hl => h.loops asn acklen (by rw [hs]; exact mem_cons_of_mem _ hl), h.acked, h.failed⟩
  · have hp := pending_live (t := { t with queue := r :: t.queue, stack := rest }) hd happs
    rw [hp]
    exact hsplit
  · have hdead : t.destroyed = true := hdead
    rw [hd] at hdead
    cases hdead

/-- The rest of a callback, without its first action. -/
theorem inv_callback (h : Inv t) {a : Act} {acts : List Act} (hs : t.stack = .callback (a :: acts) :: rest) :
    Inv { t with stack := .callback acts :: rest } := by
  have hpop : Inv { t with stack := rest } := inv_pop h hs rfl rfl (fun heq => by cases heq) t.rtt
  refine inv_stack hpop (.callback acts :: rest) t.tsn t.expiry t.rtt t.now (Nat.le_refl _) rfl rfl hpop.nested
    (fun hc => ?_) (fun hne => ?_) (fun hd => (h.dead hd).2.1) fun asn acklen hl => ?_
  · intro f hf
    obtain rfl | hf := List.mem_cons.mp hf
    · exact .inl ⟨_, rfl⟩
    · exact hc f hf
  · exact (hpop.timer hne).imp_right (mem_cons_of_mem _)
  · exact (List.mem_cons.mp hl).resolve_left fun heq => by cases heq

/-- A packet that could not be sent has its callback fired at once. -/
theorem inv_unsent (h : Inv t) (acts : List Act) : Inv (act t (.pull false) acts t.stack) := by
  refine inv_stack h (.callback acts :: t.stack) (t.tsn + 1) t.expiry t.rtt t.now (Nat.le_succ _) rfl rfl h.nested (fun hc => ?_)
    (fun hne => ?_) (fun hd => (h.dead hd).2.1) fun asn acklen hl => ?_
  · intro f hf
    obtain rfl | hf := List.mem_cons.mp hf
    · exact .inl ⟨_, rfl⟩
    · exact hc f hf
  · exact (h.timer hne).imp_right (mem_cons_of_mem _)
  · exact (List.mem_cons.mp hl).resolve_left fun heq => by cases heq

theorem inv_resume (h : Inv t) {acts : List Act} (hf : Fits t (.resume acts)) : Inv (resume t acts) := by
  unfold resume
  unfold Fits at hf
  cases hs : t.stack with
  | nil => exact h
  | cons f rest =>
    rw [hs] at hf
    cases f with
    | callback as =>
      cases as with
      | nil => exact inv_pop h hs rfl rfl (fun heq => by cases heq) t.rtt
      | cons a as =>
        have hcall := inv_callback h hs
        cases a with
        | pull sent =>
          cases sent with
          | true => exact inv_send hcall hf
          | false => exact inv_unsent hcall acts
        | destroy =>
          obtain ⟨hd, hq, hheld⟩ := hf
          exact inv_destroy hcall hd hheld (.inl hq) acts
    | loop asn acklen => exact inv_loop h hs acts
    | pushFront r => exact inv_pushFront h hs
    | updateRTT r => exact inv_pop h hs rfl rfl (fun heq => by cases heq) _
    | scheduleAt => exact inv_schedule h hs acts
    | app l =>
      cases l with
      | nil => exact inv_pop h hs rfl rfl (fun heq => by cases heq) t.rtt
      | cons r l => exact inv_app h hs acts

theorem inv_step (h : Inv t) {e : Ev} (he : Enabled t e) (hf : Fits t e) : Inv (step t e) := by
  cases e with
  | resume acts => exact inv_resume h hf
  | call a acts =>
    obtain ⟨hs, hd⟩ := he
    show Inv (act t a acts [])
    rw [← hs]
    cases a with
    | pull sent =>
      cases sent with
      | true => exact inv_send h hd
      | false => exact inv_unsent h acts
    | destroy => exact inv_destroy h hd (by rw [hs]; rfl) (.inr hs) acts
  | recv asn acklen =>
    obtain ⟨hs, hd, ha⟩ := he
    have happs := h.live hd
    have hsplit := h.split
    rw [pending_live hd happs, hs] at hsplit
    have hord := h.ordered
    rw [hs] at hord
    refine ⟨?_, h.nodup, h.below, hord, fun _ => rfl, fun hdead => ?_, ⟨List.mem_singleton_self _, trivial⟩,
      fun _ => .inr (mem_cons_of_mem _ mem_cons_self), fun a b hl => ?_, fun n hn => ?_, h.failed⟩
    · have hp := pending_live (t := step t (.recv asn acklen)) hd rfl
      rw [hp]
      exact hsplit
    · have hdead : t.destroyed = true := hdead
      rw [hd] at hdead
      cases hdead
    · obtain hl | hl := List.mem_cons.mp hl
      · cases hl
        exact ⟨List.mem_append_right _ mem_cons_self, ha⟩
      · cases (List.mem_singleton.mp hl)
    · obtain ⟨a, ha, hc⟩ := h.acked n hn
      exact ⟨a, List.mem_append_left _ ha, hc⟩
  | expire acts =>
    obtain ⟨hs, date, hexp, -⟩ := he
    have hne : t.expiry ≠ none := by rw [hexp]; exact Option.some_ne_none _
    have hd : t.destroyed = false := by
      by_contra hd
      rw [Bool.not_eq_false] at hd
      exact hne (h.dead hd).2.1
    have hq : t.queue ≠ [] := by
      obtain hq | hmem := h.timer hne
      · exact hq
      · rw [hs] at hmem
        cases hmem
    exact inv_timeout h [] hq hd (by rw [hs]) trivial rfl (fun _ _ hl => absurd hl not_mem_nil) acts none
  | tick now =>
    obtain ⟨hs, -⟩ := he
    exact inv_stack h t.stack t.tsn t.expiry t.rtt now (Nat.le_refl _) rfl rfl h.nested id h.timer
      (fun hd => (h.dead hd).2.1) fun _ _ hl => hl

theorem inv_new (rtt : Time) : Inv (new rtt) :=
  ⟨List.Perm.refl _, List.nodup_nil, fun _ h => absurd h not_mem_nil, List.Pairwise.nil, fun _ => rfl,
    fun h => Bool.noConfusion h, trivial, fun h => absurd rfl h, fun _ _ h => absurd h not_mem_nil,
    fun _ h => absurd h not_mem_nil, rfl⟩

theorem inv_run {rtt : Time} (h : Runs Fits rtt t) : Inv t := by
  induction h with
  | new => exact inv_new rtt
  | step e _ he hf ih => exact inv_step ih he hf

/-! ## Callbacks -/

/-- No callback is fired twice, or for a packet that was not sent; all are when all is
    destroyed; and a packet is acknowledged only if an acknowledgement covers it. -/
structure Once (t : T) : Prop where
  once : (t.fired.map (·.1)).Nodup
  sent : t.fired.map (·.1) ⊆ t.sent
  all : t.destroyed = true → t.stack = [] → (t.fired.map (·.1)).Perm t.sent
  acked : ∀ n, (n, .ACK) ∈ t.fired → ∃ a ∈ t.acks, Covers a n
  ordered : ((held t.stack ++ t.queue).map (·.seq)).Pairwise (· < ·)
  failed : t.failed = false

/-- In a run in which no callback destroys while a packet is pending, nor sends one after
    that, every callback is fired once. -/
theorem fired_once {rtt : Time} (h : Runs Fits rtt t) : Once t := by
  have hi := inv_run h
  have hnodup := hi.split.nodup_iff.mp hi.nodup
  refine ⟨(List.nodup_append.mp hnodup).1, fun n hn => hi.split.mem_iff.mpr (List.mem_append_left _ hn), fun hd hs => ?_,
    hi.acked, hi.ordered, hi.failed⟩
  have hsplit := hi.split
  rw [pending_dead hd, hs] at hsplit
  simpa [apps] using hsplit.symm

/-- The events happen one after the other, each of them `Q`. -/
def Along (Q : T → Ev → Prop) : T → List Ev → Prop
  | _, [] => True
  | t, e :: evs => Enabled t e ∧ Q t e ∧ Along Q (step t e) evs

theorem runs_along {Q : T → Ev → Prop} {rtt : Time} (h : Runs Q rtt t) {evs : List Ev} (ha : Along Q t evs) :
    Runs Q rtt (evs.foldl step t) := by
  induction evs generalizing t with
  | nil => exact h
  | cons e evs ih => exact ih (h.step e ha.1 ha.2.1) ha.2.2

/-- Two packets are sent. -/
def twoSent : T := [.call (.pull true) [], .resume [], .call (.pull true) [], .resume []].foldl step (new 1000000000)

/-- The callback of the first, which is acknowledged, sends a third one; then all is destroyed. -/
def acknowledged : List Ev :=
  [.recv 0 0, .resume [.pull true], .resume [], .resume [], .resume [], .resume [], .resume [], .resume [],
    .call .destroy [], .resume [], .resume [], .resume [], .resume [], .resume []]

/-- The timer of the first expires, and its callback destroys. -/
def expired : List Ev :=
  [.tick 3000000000, .expire [.destroy], .resume [], .resume [], .resume [], .resume [], .resume [], .resume [], .resume []]

theorem twoSent_runs (Q : T → Ev → Prop) (hQ : ∀ t a acts, Q t (.call a acts)) (hR : ∀ t acts, t.stack = [.scheduleAt] → Q t (.resume acts)) :
    Runs Q 1000000000 twoSent :=
  runs_along .new ⟨⟨rfl, rfl⟩, hQ _ _ _, cons_ne_nil _ _, hR _ _ rfl, ⟨rfl, rfl⟩, hQ _ _ _, cons_ne_nil _ _,
    hR _ _ rfl, trivial⟩

theorem acknowledged_fits : Runs Fits 1000000000 (acknowledged.foldl step twoSent) := by
  refine runs_along (twoSent_runs Fits (fun _ _ _ => trivial) fun t acts hs => ?_) ?_
  · unfold Fits
    rw [hs]
    trivial
  · have ne : ∀ (f : Frame) (l : List Frame), f :: l ≠ [] := cons_ne_nil
    exact ⟨⟨rfl, rfl, by decide⟩, trivial, ne _ _, trivial, ne _ _, rfl, ne _ _, trivial, ne _ _, trivial, ne _ _, trivial,
      ne _ _, trivial, ne _ _, trivial, ⟨rfl, rfl⟩, trivial, ne _ _, trivial, ne _ _, trivial, ne _ _, trivial, ne _ _, trivial,
      ne _ _, trivial, trivial⟩

theorem fired_once_example : Once (acknowledged.foldl step twoSent) := fired_once acknowledged_fits

/-- `destroy` fires the callback of the second packet, and so does the timer that it interrupted. -/
theorem destroy_fires_twice : Runs (fun _ _ => True) 1000000000 (expired.foldl step twoSent) ∧
    (1, .TIMEOUT) ∈ (expired.foldl step twoSent).fired ∧ ¬ ((expired.foldl step twoSent).fired.map (·.1)).Nodup := by
  refine ⟨runs_along (twoSent_runs _ (fun _ _ _ => trivial) fun _ _ _ => trivial) ?_, by decide, by decide⟩
  exact ⟨⟨rfl, by decide⟩, trivial, ⟨rfl, _, rfl, by decide⟩, trivial, cons_ne_nil _ _, trivial, cons_ne_nil _ _, trivial,
    cons_ne_nil _ _, trivial, cons_ne_nil _ _, trivial, cons_ne_nil _ _, trivial, cons_ne_nil _ _, trivial,
    cons_ne_nil _ _, trivial, trivial⟩

end BubbleStorm.Cusp.Channel.FastRetransmit
