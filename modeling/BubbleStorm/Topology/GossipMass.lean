/-
  BubbleStorm.Topology.GossipMass — within a round no mass is lost.

  A mass is a number read off a state that a share scales and a merge adds up
  (`Mass`): each sum, and the fish of the largest size. While no packet is dropped and no
  node leaves the round, the mass of the nodes and of the packets in flight is what the
  nodes brought in (`total_eq`). What else is kept by every merge and share holds of every
  node and packet (`Kept`): the minimums and maximums are those of what was merged.
-/

import Mathlib.Algebra.BigOperators.Fin
import Mathlib.Tactic.Ring
import Mathlib.Tactic.Linarith
import Mathlib.Tactic.Abel
import BubbleStorm.Topology.Gossip

namespace BubbleStorm.Topology.Gossip

open Function (update update_idem update_of_ne update_self)

variable {P : Params} {n : Nat} {R : BitVec 32} {s : St n}

/-! ## Rounds -/

theorem Round.compare_self (a : BitVec 32) : Round.compare a a = .eq := by
  simp [Round.compare, Round.lt]

theorem Round.compare_eq {a b : BitVec 32} (h : Round.compare a b = .eq) : a = b := by
  unfold Round.compare Round.lt at h
  simp only [decide_eq_true_eq] at h
  split at h
  · cases h
  · split at h
    · cases h
    · bv_omega

/-! ## What a call leaves -/

@[simp] theorem process_initd (node : Node) (data : Data) : (process P node data).initd = node.initd := rfl
@[simp] theorem process_round (node : Node) (data : Data) : (process P node data).state.round = data.round := rfl

theorem process_fishSize (node : Node) (data : Data) :
    (process P node data).state.fishSize = max node.state.fishSize data.fishSize := by
  unfold process
  dsimp only
  by_cases hlt : data.fishSize < node.state.fishSize
  · rw [if_pos hlt]
    exact (max_eq_left hlt.le).symm
  · by_cases heq : data.fishSize = node.state.fishSize
    · rw [if_neg hlt, if_pos heq, heq, max_self]
    · rw [if_neg hlt, if_neg heq, max_eq_right (not_lt.mp hlt)]

/-- The fish of the larger size stays, and equal sizes add up. -/
theorem process_fish (node : Node) (data : Data) :
    (process P node data).state.fish = (if data.fishSize ≤ node.state.fishSize then node.state.fish else 0) +
      if node.state.fishSize ≤ data.fishSize then data.fish else 0 := by
  unfold process
  dsimp only
  by_cases hlt : data.fishSize < node.state.fishSize
  · rw [if_pos hlt, if_pos hlt.le, if_neg (not_le.mpr hlt), add_zero]
  · by_cases heq : data.fishSize = node.state.fishSize
    · rw [if_neg hlt, if_pos heq, if_pos heq.le, if_pos heq.ge]
    · have hgt : node.state.fishSize < data.fishSize := lt_of_le_of_ne (not_lt.mp hlt) (Ne.symm heq)
      rw [if_neg hlt, if_neg heq, if_neg (not_le.mpr hgt), if_pos hgt.le, zero_add]

@[simp] theorem skipRound_initd (node : Node) (r : BitVec 32) : (skipRound P node r).initd = node.initd := rfl
@[simp] theorem skipRound_round (node : Node) (r : BitVec 32) : (skipRound P node r).state.round = r := rfl
@[simp] theorem share_round (ratio : ℚ) (data : Data) : (share P ratio data).round = data.round := rfl

@[simp] theorem newRound_initd (node : Node) (own : Pull) (r : BitVec 32) : (newRound P node own r).initd = node.initd := by
  unfold newRound
  split <;> rfl

@[simp] theorem newRound_round (node : Node) (own : Pull) (r : BitVec 32) : (newRound P node own r).state.round = r := by
  unfold newRound
  split <;> rfl

@[simp] theorem catchUp_initd (node : Node) (own : Pull) (p : Data) : (catchUp P node own p).initd = node.initd := by
  unfold catchUp
  split <;> simp

@[simp] theorem catchUp_round (node : Node) (own : Pull) (p : Data) : (catchUp P node own p).state.round = p.round := by
  unfold catchUp
  split <;> simp

/-- A state a round begins with. -/
def Begun (P : Params) (d : Data) : Prop :=
  d.fish = 1 ∧ ∀ i, P.min + P.max ≤ i → ∃ q, d.values i = Real.ofRat q

theorem begun_skipRound (node : Node) (r : BitVec 32) : Begun P (skipRound P node r).state := by
  refine ⟨rfl, fun i hi => ⟨0, ?_⟩⟩
  have h1 : ¬ i < P.min := by omega
  have h2 : ¬ i < P.min + P.max := by omega
  show nothing P i = _
  rw [nothing, if_neg h1, if_neg h2]

theorem begun_newRound (node : Node) (own : Pull) (r : BitVec 32) : Begun P (newRound P node own r).state := by
  unfold newRound
  split
  · exact begun_skipRound node r
  · exact ⟨rfl, fun i _ => ⟨own.values i, rfl⟩⟩

theorem begun_catchUp (node : Node) (own : Pull) (p : Data) : Begun P (catchUp P node own p).state := by
  unfold catchUp
  split
  · exact begun_skipRound node _
  · exact begun_newRound node own _

/-! ## Steps of a round -/

/-- What a step does to the states of a round. -/
inductive Moves (P : Params) (R : BitVec 32) (s s' : St n) : Prop
  /-- Nothing of the round changes; a packet of another round may go, or come. -/
  | idle (hn : ∀ i, InRound R (s'.nodes i) ↔ InRound R (s.nodes i))
      (hs : ∀ i, InRound R (s.nodes i) → s'.nodes i = s.nodes i ∧ s'.merged i = s.merged i)
      (hp : (s'.packets.filter (·.1.round = R)).Perm (s.packets.filter (·.1.round = R)))
      (hj : s'.joined.filter (·.round = R) = s.joined.filter (·.round = R))
  /-- A node that takes part shares its mass with a packet. -/
  | share (i : Fin n) (ratio : ℚ) (hi : InRound R (s.nodes i))
      (h : s' = { s.setNode i { s.nodes i with state := share P (1 - ratio) (s.nodes i).state } (s.merged i) with
        packets := s.packets ++ [(share P ratio (s.nodes i).state, s.merged i)] })
  /-- A packet is merged by a node that takes part. -/
  | merge (i : Fin n) (p : Data × List Data) (node : Node) (rest : List (Data × List Data)) (hi : InRound R (s.nodes i))
      (hr : p.1.round = R) (hp : s.packets.Perm (p :: rest)) (hnode : node.state = (process P (s.nodes i) p.1).state)
      (hinit : node.initd = true)
      (h : s' = St.setNode { s with packets := rest } i node (p.2 ++ s.merged i))
  /-- A node begins the round. -/
  | begin (i : Fin n) (node : Node) (rest : List (Data × List Data)) (hi : ¬ InRound R (s.nodes i)) (hnode : InRound R node)
      (hb : Begun P node.state) (hp : (rest.filter (·.1.round = R)).Perm (s.packets.filter (·.1.round = R)))
      (h : s' = St.begin { s with packets := rest } i node)
  /-- A node begins the round because of a packet, which it merges. -/
  | enter (i : Fin n) (node : Node) (p : Data × List Data) (rest : List (Data × List Data)) (hi : ¬ InRound R (s.nodes i))
      (hnode : InRound R node) (hb : Begun P node.state) (hr : p.1.round = R) (hp : s.packets.Perm (p :: rest))
      (h : s' = (St.begin { s with packets := rest } i node).setNode i (process P node p.1) (p.2 ++ [node.state]))

theorem setNode_same (s : St n) (i : Fin n) (node : Node) (m : List Data) : (s.setNode i node m).nodes i = node :=
  update_self ..

/-- A node out of the round that stays out of it does not matter. -/
theorem moves_outside {s s' : St n} (i : Fin n) (node : Node) (m : List Data) (hi : ¬ InRound R (s.nodes i))
    (hnode : ¬ InRound R node) (hn : s'.nodes = update s.nodes i node) (hm : s'.merged = update s.merged i m)
    (hp : (s'.packets.filter (·.1.round = R)).Perm (s.packets.filter (·.1.round = R)))
    (hj : s'.joined.filter (·.round = R) = s.joined.filter (·.round = R)) : Moves P R s s' := by
  refine .idle (fun j => ?_) (fun j hin => ?_) hp hj
  · rw [hn]
    by_cases h : j = i
    · rw [h, update_self]
      exact iff_of_false hnode hi
    · rw [update_of_ne h]
  · have h : j ≠ i := fun h => hi (h ▸ hin)
    rw [hn, hm, update_of_ne h, update_of_ne h]
    exact ⟨rfl, rfl⟩

theorem perm_eraseIdx {l : List (Data × List Data)} {k : Nat} {p : Data × List Data} (h : l[k]? = some p) :
    l.Perm (p :: l.eraseIdx k) := by
  obtain ⟨hk, rfl⟩ := List.getElem?_eq_some_iff.mp h
  exact (List.getElem_cons_eraseIdx_perm hk).symm

theorem filter_gone {l : List (Data × List Data)} {k : Nat} {p : Data × List Data} (h : l[k]? = some p)
    (hr : p.1.round ≠ R) : ((l.eraseIdx k).filter (·.1.round = R)).Perm (l.filter (·.1.round = R)) := by
  have hp := (perm_eraseIdx h).filter (·.1.round = R)
  rw [List.filter_cons_of_neg (by simpa using hr)] at hp
  exact hp.symm

theorem moves_sample {i : Fin n} {ratio : ℚ} : Moves P R s (step P s (.sample i ratio)) := by
  unfold step
  dsimp only
  unfold sample
  split
  · exact .idle (fun _ => Iff.rfl) (fun _ _ => ⟨rfl, rfl⟩) (.refl _) rfl
  · rename_i node packet hs
    split at hs
    · cases hs
    · dsimp only at hs
      split at hs
      · cases hs
        by_cases hi : InRound R (s.nodes i)
        · exact .share i ratio hi rfl
        · have hr : (s.nodes i).state.round ≠ R := fun hr => hi ⟨by simpa using ‹¬(!(s.nodes i).initd) = true›, hr⟩
          refine moves_outside i { s.nodes i with state := share P (1 - ratio) (s.nodes i).state } (s.merged i) hi
            (fun h => hr h.2) rfl rfl ?_ rfl
          rw [List.filter_append, List.filter_cons_of_neg (by simp [hr]), List.filter_nil, List.append_nil]
      · cases hs

/-- The node's own move to round `R`, or past it: only a move into it matters. -/
theorem moves_begin {s' : St n} (i : Fin n) (node : Node) (rest : List (Data × List Data)) (hi : ¬ InRound R (s.nodes i))
    (hinit : node.initd = true) (hb : Begun P node.state)
    (hp : (rest.filter (·.1.round = R)).Perm (s.packets.filter (·.1.round = R)))
    (h : s' = St.begin { s with packets := rest } i node) : Moves P R s s' := by
  by_cases hr : node.state.round = R
  · exact .begin i node rest hi ⟨hinit, hr⟩ hb hp h
  · subst h
    refine moves_outside i node [node.state] hi (fun h => hr h.2) rfl rfl hp ?_
    exact List.filter_cons_of_neg (by simpa using hr)

/-- A node hears of its own round: the round goes on, or the node begins the next one. -/
theorem recv_equal {node : Node} {packet : Data} (own : Pull) (degree : Nat) (hinit : node.initd = true)
    (hc : Round.compare packet.round node.state.round = .eq) :
    (recv P node own degree packet).initd = true ∧
      ((recv P node own degree packet).state.round = node.state.round ∧
          (recv P node own degree packet).state = (process P node packet).state ∨
        (recv P node own degree packet).state.round ≠ node.state.round ∧ Begun P (recv P node own degree packet).state) := by
  obtain ⟨steady, hrecv⟩ : ∃ steady, recv P node own degree packet =
      if steady < degree + P.gossipExtraAgreement then { process P node packet with steady := steady }
      else newRound P { process P node packet with steady := steady } own (node.state.round + 1) := by
    refine ⟨if P.isChanged node.state (process P node packet).state packet.fishSize then 0 else node.steady + 1, ?_⟩
    unfold recv
    simp only [hinit, hc, Bool.not_true, Bool.false_eq_true, if_false]
  rw [hrecv]
  split
  · exact ⟨hinit, .inl ⟨Round.compare_eq hc, rfl⟩⟩
  · refine ⟨?_, .inr ⟨?_, begun_newRound _ _ _⟩⟩
    · rw [newRound_initd]
      exact hinit
    · rw [newRound_round]
      bv_omega

theorem moves_recv {i : Fin n} {k : Nat} {own : Pull} {degree : Nat} (h : Stays P R s (.recv i k own degree)) :
    Moves P R s (step P s (.recv i k own degree)) := by
  have hstay := h.nodes i
  have hdrop := h.packets
  unfold step at hstay ⊢
  dsimp only at hstay ⊢
  cases hk : s.packets[k]? with
  | none => exact .idle (fun _ => Iff.rfl) (fun _ _ => ⟨rfl, rfl⟩) (.refl _) rfl
  | some p =>
    rw [hk] at hstay
    dsimp only at hstay ⊢
    unfold stepRecv at hstay ⊢
    dsimp only at hstay ⊢
    have hperm := perm_eraseIdx hk
    by_cases hinit : (s.nodes i).initd = true
    · simp only [hinit, Bool.not_true, Bool.false_eq_true, if_false] at hstay ⊢
      cases hc : Round.compare p.1.round (s.nodes i).state.round with
      | lt =>
        have hr : p.1.round ≠ R := fun hr => hdrop ⟨p, hk, hr, .inr (hr ▸ hc)⟩
        exact .idle (fun _ => Iff.rfl) (fun _ _ => ⟨rfl, rfl⟩) (filter_gone hk hr) rfl
      | gt =>
        rw [hc] at hstay
        dsimp only at hstay ⊢
        have hnode : recv P (s.nodes i) own degree p.1 = process P (catchUp P (s.nodes i) own p.1) p.1 := by
          unfold recv catchUp
          simp only [hinit, hc, Bool.not_true, Bool.false_eq_true, if_false]
        rw [hnode] at hstay ⊢
        have hi : ¬ InRound R (s.nodes i) := by
          intro hi
          have hto := (hstay hi).2
          rw [setNode_same] at hto
          have hr : p.1.round = R := hto
          rw [hr, hi.2, Round.compare_self] at hc
          cases hc
        by_cases hr : p.1.round = R
        · refine .enter i (catchUp P (s.nodes i) own p.1) p _ hi ⟨?_, ?_⟩ (begun_catchUp _ _ _) hr hperm rfl
          · rw [catchUp_initd]
            exact hinit
          · rw [catchUp_round]
            exact hr
        · refine moves_outside i (process P (catchUp P (s.nodes i) own p.1) p.1) (p.2 ++ [(catchUp P (s.nodes i) own p.1).state])
            hi (fun h => hr h.2) ?_ ?_ (filter_gone hk hr) ?_
          · exact update_idem ..
          · exact update_idem ..
          · exact List.filter_cons_of_neg (by simpa using hr)
      | eq =>
        rw [hc] at hstay
        dsimp only at hstay ⊢
        have hround := Round.compare_eq hc
        obtain ⟨hinit', hnode⟩ := recv_equal (P := P) own degree hinit hc
        rcases hnode with ⟨hsame, hnode⟩ | ⟨hsame, hnode⟩
        · rw [if_pos hsame] at hstay ⊢
          -- the round is not over
          by_cases hi : InRound R (s.nodes i)
          · exact .merge i p _ _ hi (hround.trans hi.2) hperm hnode hinit' rfl
          · have hr : (s.nodes i).state.round ≠ R := fun hr => hi ⟨hinit, hr⟩
            refine moves_outside i _ _ hi (fun h => hr (hsame ▸ h.2)) rfl rfl (filter_gone hk ?_) rfl
            exact fun h => hr (hround ▸ h)
        · rw [if_neg hsame] at hstay ⊢
          have hi : ¬ InRound R (s.nodes i) := by
            intro hi
            have hto := (hstay hi).2
            have e : (St.begin { s with packets := s.packets.eraseIdx k } i (recv P (s.nodes i) own degree p.1)).nodes i =
                recv P (s.nodes i) own degree p.1 := update_self ..
            rw [e] at hto
            exact hsame (hto.trans hi.2.symm)
          have hr : p.1.round ≠ R := fun hr => hi ⟨hinit, hround ▸ hr⟩
          exact moves_begin i _ _ hi hinit' hnode (filter_gone hk hr) rfl
    · rw [Bool.not_eq_true] at hinit
      simp only [hinit, Bool.not_false, if_true]
      have hr : p.1.round ≠ R := fun hr => hdrop ⟨p, hk, hr, .inl hinit⟩
      exact .idle (fun _ => Iff.rfl) (fun _ _ => ⟨rfl, rfl⟩) (filter_gone hk hr) rfl

theorem moves_recover {i : Fin n} {k : Nat} (h : Stays P R s (.recover i k)) : Moves P R s (step P s (.recover i k)) := by
  have hdrop := h.packets
  unfold step
  dsimp only
  cases hk : s.packets[k]? with
  | none => exact .idle (fun _ => Iff.rfl) (fun _ _ => ⟨rfl, rfl⟩) (.refl _) rfl
  | some p =>
    dsimp only
    by_cases hr : p.1.round = R
    · have hi : InRound R (s.nodes i) := by
        by_contra hi
        exact hdrop ⟨p, hk, hr, hi⟩
      have hround : (s.nodes i).state.round = p.1.round := hi.2.trans hr.symm
      rw [if_neg (by simp [hround])]
      refine .merge i p _ _ hi hr (perm_eraseIdx hk) ?_ ?_ rfl
      · rw [recover, if_neg (by simp [hround])]
      · rw [recover, if_neg (by simp [hround])]
        exact hi.1
    · split
      · exact .idle (fun _ => Iff.rfl) (fun _ _ => ⟨rfl, rfl⟩) (filter_gone hk hr) rfl
      · rename_i hround
        rw [ne_eq, not_not] at hround
        have hnode : (recover P (s.nodes i) p.1).state.round ≠ R := by
          rw [recover, if_neg (by simp [hround])]
          exact hr
        exact moves_outside i _ _ (fun h => hr (hround ▸ h.2)) (fun h => hnode h.2) rfl rfl (filter_gone hk hr) rfl

theorem step_moves {e : Ev n} (h : Stays P R s e) : Moves P R s (step P s e) := by
  cases e with
  | sample i ratio => exact moves_sample
  | recv i k own degree => exact moves_recv h
  | recover i k => exact moves_recover h
  | create i own =>
    unfold step
    dsimp only
    split
    · exact .idle (fun _ => Iff.rfl) (fun _ _ => ⟨rfl, rfl⟩) (.refl _) rfl
    · rename_i hinit
      refine moves_begin i _ s.packets (fun h => hinit h.1) ?_ ?_ (.refl _) rfl
      · rw [initCreate, if_neg hinit, newRound_initd]
      · rw [initCreate, if_neg hinit]
        exact begun_newRound _ _ _
  | join i lastRound =>
    unfold step
    dsimp only
    split
    · exact .idle (fun _ => Iff.rfl) (fun _ _ => ⟨rfl, rfl⟩) (.refl _) rfl
    · rename_i hinit
      refine moves_begin i _ s.packets (fun h => hinit h.1) ?_ ?_ (.refl _) rfl
      · rw [initJoin, if_neg hinit, skipRound_initd]
      · rw [initJoin, if_neg hinit]
        exact begun_skipRound _ _
  | deinit i =>
    have hi : ¬ InRound R (s.nodes i) := by
      intro hi
      have hto := (h.nodes i hi).1
      have e : (step P s (.deinit i)).nodes i = deinit (s.nodes i) := update_self ..
      rw [e] at hto
      cases hto
    exact moves_outside i (deinit (s.nodes i)) (s.merged i) hi (fun h => Bool.noConfusion h.1) rfl rfl (.refl _) rfl

/-! ## What was merged -/

/-- A state and what was merged into it. -/
structure Good (P : Params) (d : Data) (m : List Data) : Prop where
  size : ∃ c ∈ m, c.fishSize = d.fishSize
  sums : ∀ i, P.min + P.max ≤ i → ∃ q, d.values i = Real.ofRat q
  mins : ∀ i, i < P.min → d.values i = (m.map (·.values i)).foldr min ⊤
  maxs : ∀ i, P.min ≤ i → i < P.min + P.max → d.values i = (m.map (·.values i)).foldr max ⊥

theorem good_begun {d : Data} (h : Begun P d) : Good P d [d] := by
  refine ⟨⟨d, List.mem_singleton_self d, rfl⟩, h.2, fun i _ => ?_, fun i _ _ => ?_⟩
  · simp
  · simp

theorem good_share {d : Data} {m : List Data} {r : ℚ} (h : Good P d m) : Good P (share P r d) m := by
  refine ⟨h.size, fun i hi => ?_, fun i hi => ?_, fun i h1 h2 => ?_⟩
  · obtain ⟨q, hq⟩ := h.sums i hi
    have hn : ¬ i < P.min + P.max := by omega
    refine ⟨r * q, ?_⟩
    simp only [share, if_neg hn, hq]
    rfl
  · have hn : i < P.min + P.max := by omega
    simp only [share, if_pos hn]
    exact h.mins i hi
  · simp only [share, if_pos h2]
    exact h.maxs i h1 h2

theorem foldr_min_append (a b : List Real) : (a ++ b).foldr min ⊤ = min (a.foldr min ⊤) (b.foldr min ⊤) := by
  induction a with
  | nil => simp
  | cons x a ih => rw [List.cons_append, List.foldr_cons, List.foldr_cons, ih, min_assoc]

theorem foldr_max_append (a b : List Real) : (a ++ b).foldr max ⊥ = max (a.foldr max ⊥) (b.foldr max ⊥) := by
  induction a with
  | nil => simp
  | cons x a ih => rw [List.cons_append, List.foldr_cons, List.foldr_cons, ih, max_assoc]

theorem good_process {node : Node} {p : Data} {m m' : List Data} (h : Good P node.state m) (hp : Good P p m') :
    Good P (process P node p).state (m' ++ m) := by
  refine ⟨?_, fun i hi => ?_, fun i hi => ?_, fun i h1 h2 => ?_⟩
  · obtain ⟨c, hc, hcs⟩ := h.size
    obtain ⟨c', hc', hcs'⟩ := hp.size
    rw [process_fishSize]
    obtain hle | hle := le_total p.fishSize node.state.fishSize
    · rw [max_eq_left hle]
      exact ⟨c, List.mem_append_right _ hc, hcs⟩
    · rw [max_eq_right hle]
      exact ⟨c', List.mem_append_left _ hc', hcs'⟩
  · obtain ⟨q, hq⟩ := h.sums i hi
    obtain ⟨q', hq'⟩ := hp.sums i hi
    have h1 : ¬ i < P.min := by omega
    have h2 : ¬ i < P.min + P.max := by omega
    refine ⟨q' + q, ?_⟩
    show combine P node.state.values i (p.values i) = _
    rw [combine, if_neg h1, if_neg h2, hq, hq']
    rfl
  · show combine P node.state.values i (p.values i) = _
    rw [combine, if_pos hi, hp.mins i hi, h.mins i hi, List.map_append, foldr_min_append]
  · show combine P node.state.values i (p.values i) = _
    have hn : ¬ i < P.min := by omega
    rw [combine, if_neg hn, if_pos h2, hp.maxs i h1 h2, h.maxs i h1 h2, List.map_append, foldr_max_append]

/-! ## What a round keeps -/

/-- What the nodes brought into the round. -/
def St.brought (s : St n) (R : BitVec 32) : List Data := s.joined.filter (·.round = R)

def St.flying (s : St n) (R : BitVec 32) : List (Data × List Data) := s.packets.filter (·.1.round = R)

/-- Everything of the round is `Good`, and comes from what was brought. -/
structure Kept (P : Params) (R : BitVec 32) (s : St n) : Prop where
  nodes : ∀ i, InRound R (s.nodes i) → Good P (s.nodes i).state (s.merged i) ∧ s.merged i ⊆ s.brought R
  packets : ∀ p ∈ s.flying R, Good P p.1 p.2 ∧ p.2 ⊆ s.brought R
  begun : ∀ d ∈ s.brought R, Begun P d

theorem mem_flying {p : Data × List Data} : p ∈ s.flying R ↔ p ∈ s.packets ∧ p.1.round = R := by
  simp [St.flying]

theorem kept_before (h : Before R s) : Kept P R s := by
  refine ⟨fun i hi => absurd hi (h.nodes i), fun p hp => ?_, fun d hd => ?_⟩
  · rw [mem_flying] at hp
    exact absurd hp.2 (h.packets p hp.1)
  · simp [St.brought, h.joined] at hd

/-- The states of node `i` and of the others apart. -/
theorem forall_setNode {Q : Node → List Data → Prop} {i : Fin n} {node : Node} {m : List Data} (hi : Q node m)
    (ho : ∀ j, j ≠ i → Q (s.nodes j) (s.merged j)) (j : Fin n) :
    Q ((s.setNode i node m).nodes j) ((s.setNode i node m).merged j) := by
  by_cases h : j = i
  · subst h
    simpa [St.setNode] using hi
  · simpa [St.setNode, h] using ho j h

theorem kept_moves {s' : St n} (hk : Kept P R s) (h : Moves P R s s') : Kept P R s' := by
  cases h with
  | idle hn hs hp hj =>
    have hb : s'.brought R = s.brought R := hj
    refine ⟨fun i hi => ?_, fun p hp' => ?_, ?_⟩
    · have hi' := (hn i).mp hi
      rw [(hs i hi').1, (hs i hi').2, hb]
      exact hk.nodes i hi'
    · rw [hb]
      exact hk.packets p (hp.mem_iff.mp hp')
    · rw [hb]
      exact hk.begun
  | share i ratio hi h =>
    subst h
    obtain ⟨hg, hsub⟩ := hk.nodes i hi
    refine ⟨?_, fun p hp => ?_, hk.begun⟩
    · exact forall_setNode (Q := fun node m => InRound R node → Good P node.state m ∧ m ⊆ s.brought R)
        (fun _ => ⟨good_share hg, hsub⟩) (fun j _ => hk.nodes j)
    · rw [mem_flying, List.mem_append, List.mem_singleton] at hp
      obtain ⟨hp | rfl, hr⟩ := hp
      · exact hk.packets p (mem_flying.mpr ⟨hp, hr⟩)
      · exact ⟨good_share hg, hsub⟩
  | merge i p node rest hi hr hp hnode hinit h =>
    subst h
    obtain ⟨hg, hsub⟩ := hk.nodes i hi
    obtain ⟨hgp, hsubp⟩ := hk.packets p (mem_flying.mpr ⟨hp.mem_iff.mpr List.mem_cons_self, hr⟩)
    refine ⟨?_, fun q hq => ?_, hk.begun⟩
    · refine forall_setNode (Q := fun node m => InRound R node → Good P node.state m ∧ m ⊆ s.brought R)
        (fun _ => ⟨?_, List.append_subset.mpr ⟨hsubp, hsub⟩⟩) (fun j _ => hk.nodes j)
      rw [hnode]
      exact good_process hg hgp
    · rw [mem_flying] at hq
      exact hk.packets q (mem_flying.mpr ⟨hp.mem_iff.mpr (List.mem_cons_of_mem _ hq.1), hq.2⟩)
  | begin i node rest hi hnode hb hp h =>
    subst h
    have hbrought : (St.begin { s with packets := rest } i node).brought R = node.state :: s.brought R :=
      List.filter_cons_of_pos (by simpa using hnode.2)
    refine ⟨?_, fun q hq => ?_, fun d hd => ?_⟩
    · rw [hbrought]
      refine forall_setNode (Q := fun node' m => InRound R node' → Good P node'.state m ∧ m ⊆ node.state :: s.brought R)
        (fun _ => ⟨good_begun hb, ?_⟩) (fun j _ hj => ⟨(hk.nodes j hj).1, List.subset_cons_of_subset _ (hk.nodes j hj).2⟩)
      exact List.cons_subset_cons _ (List.nil_subset _)
    · obtain ⟨h1, h2⟩ := hk.packets q (hp.mem_iff.mp hq)
      rw [hbrought]
      exact ⟨h1, List.subset_cons_of_subset _ h2⟩
    · rw [hbrought, List.mem_cons] at hd
      obtain rfl | hd := hd
      · exact hb
      · exact hk.begun d hd
  | enter i node p rest hi hnode hb hr hp h =>
    subst h
    have hbrought : ((St.begin { s with packets := rest } i node).setNode i (process P node p.1)
        (p.2 ++ [node.state])).brought R = node.state :: s.brought R :=
      List.filter_cons_of_pos (by simpa using hnode.2)
    obtain ⟨hgp, hsubp⟩ := hk.packets p (mem_flying.mpr ⟨hp.mem_iff.mpr List.mem_cons_self, hr⟩)
    refine ⟨?_, fun q hq => ?_, fun d hd => ?_⟩
    · rw [hbrought]
      refine forall_setNode (Q := fun node' m => InRound R node' → Good P node'.state m ∧ m ⊆ node.state :: s.brought R)
        (fun _ => ⟨good_process (good_begun hb) hgp, ?_⟩) (fun j hj hin => ?_)
      · refine List.append_subset.mpr ⟨List.subset_cons_of_subset _ hsubp, ?_⟩
        exact List.cons_subset_cons _ (List.nil_subset _)
      · have e : (St.begin { s with packets := rest } i node).nodes j = s.nodes j := update_of_ne hj ..
        have e' : (St.begin { s with packets := rest } i node).merged j = s.merged j := update_of_ne hj ..
        rw [e] at hin ⊢
        rw [e']
        exact ⟨(hk.nodes j hin).1, List.subset_cons_of_subset _ (hk.nodes j hin).2⟩
    · have hq' := mem_flying.mp hq
      rw [hbrought]
      obtain ⟨h1, h2⟩ := hk.packets q (mem_flying.mpr ⟨hp.mem_iff.mpr (List.mem_cons_of_mem _ hq'.1), hq'.2⟩)
      exact ⟨h1, List.subset_cons_of_subset _ h2⟩
    · rw [hbrought, List.mem_cons] at hd
      obtain rfl | hd := hd
      · exact hb
      · exact hk.begun d hd

theorem kept_reach (h : Reach P R s) : Kept P R s := by
  induction h with
  | start h => exact kept_before h
  | step e _ hs ih => exact kept_moves ih (step_moves hs)

/-! ## Mass -/

section Mass

variable {A : Type} [AddCommMonoid A]

/-- A number that shares split and merges add up, as long as the states are `H`. -/
structure Mass (P : Params) (H : Data → Prop) (f : Data → A) : Prop where
  share : ∀ d r, H d → f (share P (1 - r) d) + f (Gossip.share P r d) = f d
  process : ∀ (node : Node) (d : Data), H node.state → H d → f (process P node d).state = f node.state + f d

def massAt (R : BitVec 32) (f : Data → A) (node : Node) : A := if InRound R node then f node.state else 0

/-- The mass of the nodes and the packets of the round. -/
def total (R : BitVec 32) (f : Data → A) (s : St n) : A :=
  ∑ i, massAt R f (s.nodes i) + ((s.flying R).map (fun p => f p.1)).sum

theorem massAt_in {f : Data → A} {node : Node} (h : InRound R node) : massAt R f node = f node.state := if_pos h

theorem massAt_out {f : Data → A} {node : Node} (h : ¬ InRound R node) : massAt R f node = 0 := if_neg h

/-- The nodes but one. -/
def others (R : BitVec 32) (f : Data → A) (s : St n) (i : Fin n) : A :=
  ∑ j ∈ Finset.univ.erase i, massAt R f (s.nodes j)

theorem sum_nodes (f : Data → A) (s : St n) (i : Fin n) :
    ∑ j, massAt R f (s.nodes j) = massAt R f (s.nodes i) + others R f s i :=
  (Finset.add_sum_erase _ _ (Finset.mem_univ i)).symm

theorem sum_setNode {f : Data → A} {s' : St n} {i : Fin n} {node : Node} (h : s'.nodes = update s.nodes i node) :
    ∑ j, massAt R f (s'.nodes j) = massAt R f node + others R f s i := by
  rw [sum_nodes f s' i, h, update_self]
  congr 1
  refine Finset.sum_congr rfl fun j hj => ?_
  rw [h, update_of_ne (Finset.ne_of_mem_erase hj)]

theorem total_moves {H : Data → Prop} {f : Data → A} {s' : St n} (hf : Mass P H f) (h : Moves P R s s')
    (hn : ∀ i, InRound R (s.nodes i) → H (s.nodes i).state) (hp : ∀ p ∈ s.flying R, H p.1)
    (hb : ∀ d ∈ s'.brought R, H d) (ih : total R f s = ((s.brought R).map f).sum) :
    total R f s' = ((s'.brought R).map f).sum := by
  cases h with
  | idle hin hs hperm hj =>
    have hj' : s'.brought R = s.brought R := hj
    rw [hj', ← ih]
    unfold total
    congr 1
    · refine Finset.sum_congr rfl fun i _ => ?_
      by_cases hi : InRound R (s.nodes i)
      · rw [(hs i hi).1]
      · rw [massAt_out hi, massAt_out (fun h => hi ((hin i).mp h))]
    · exact (hperm.map _).sum_eq
  | share i ratio hi h =>
    subst h
    refine Eq.trans ?_ ih
    have hfly : St.flying { s.setNode i { s.nodes i with state := share P (1 - ratio) (s.nodes i).state } (s.merged i) with
        packets := s.packets ++ [(share P ratio (s.nodes i).state, s.merged i)] } R =
        s.flying R ++ [(share P ratio (s.nodes i).state, s.merged i)] := by
      unfold St.flying
      rw [List.filter_append]
      congr 1
      exact List.filter_cons_of_pos (decide_eq_true hi.2)
    have hkeep : massAt R f { s.nodes i with state := share P (1 - ratio) (s.nodes i).state } =
        f (share P (1 - ratio) (s.nodes i).state) := massAt_in hi
    unfold total
    rw [hfly, sum_setNode (s := s) rfl, sum_nodes f s i, massAt_in hi, hkeep, ← hf.share _ ratio (hn i hi)]
    simp only [List.map_append, List.map_cons, List.map_nil, List.sum_append, List.sum_cons, List.sum_nil, add_zero]
    abel
  | merge i p node rest hi hr hperm hnode hinit h =>
    subst h
    refine Eq.trans ?_ ih
    have hfly : (s.flying R).Perm (p :: rest.filter (·.1.round = R)) := by
      have := hperm.filter (·.1.round = R)
      rwa [List.filter_cons_of_pos (by simpa using hr)] at this
    have hin : InRound R node := ⟨hinit, by rw [hnode]; exact hr⟩
    unfold total
    rw [sum_setNode (s := s) rfl, sum_nodes f s i, massAt_in hi, massAt_in hin, hnode,
      hf.process _ _ (hn i hi) (hp p (hfly.mem_iff.mpr List.mem_cons_self)), (hfly.map _).sum_eq]
    simp only [List.map_cons, List.sum_cons]
    unfold St.flying
    dsimp only [St.setNode]
    abel
  | begin i node rest hi hnode hb' hperm h =>
    subst h
    have hbrought : (St.begin { s with packets := rest } i node).brought R = node.state :: s.brought R :=
      List.filter_cons_of_pos (by simpa using hnode.2)
    rw [hbrought, List.map_cons, List.sum_cons, ← ih]
    unfold total
    rw [sum_setNode (s := s) rfl, sum_nodes f s i, massAt_in hnode, massAt_out hi]
    have hsum := (hperm.map (fun p => f p.1)).sum_eq
    unfold St.flying
    dsimp only [St.begin, St.setNode]
    rw [hsum]
    abel
  | enter i node p rest hi hnode hb' hr hperm h =>
    subst h
    have hbrought : ((St.begin { s with packets := rest } i node).setNode i (process P node p.1)
        (p.2 ++ [node.state])).brought R = node.state :: s.brought R :=
      List.filter_cons_of_pos (by simpa using hnode.2)
    have hnodes : ((St.begin { s with packets := rest } i node).setNode i (process P node p.1)
        (p.2 ++ [node.state])).nodes = update s.nodes i (process P node p.1) := update_idem ..
    have hfly : (s.flying R).Perm (p :: rest.filter (·.1.round = R)) := by
      have := hperm.filter (·.1.round = R)
      rwa [List.filter_cons_of_pos (by simpa using hr)] at this
    have hH : H node.state := hb _ (by rw [hbrought]; exact List.mem_cons_self)
    have hin : InRound R (process P node p.1) := ⟨hnode.1, hr⟩
    rw [hbrought, List.map_cons, List.sum_cons, ← ih]
    unfold total
    rw [sum_setNode hnodes, sum_nodes f s i, massAt_out hi, massAt_in hin,
      hf.process _ _ hH (hp p (hfly.mem_iff.mpr List.mem_cons_self)), (hfly.map _).sum_eq]
    simp only [List.map_cons, List.sum_cons]
    unfold St.flying
    dsimp only [St.begin, St.setNode]
    abel

end Mass

/-! ## Sums and fish -/

theorem mass_sum {i : Nat} (hi : P.min + P.max ≤ i) :
    Mass P (fun d => ∃ q, d.values i = Real.ofRat q) (fun d => d.values i) := by
  have h1 : ¬ i < P.min := by omega
  have h2 : ¬ i < P.min + P.max := by omega
  refine ⟨fun d r ⟨q, hq⟩ => ?_, fun node d _ _ => ?_⟩
  · simp only [share, if_neg h2, hq]
    have e : (1 - r) * q + r * q = q := by ring
    exact congrArg Real.ofRat e
  · show combine P node.state.values i (d.values i) = _
    rw [combine, if_neg h1, if_neg h2]
    exact add_comm _ _

/-- The fish of size `M` of a state. -/
def fishOf (M : Nat) (d : Data) : ℚ := if d.fishSize = M then d.fish else 0

theorem mass_fish (M : Nat) : Mass P (fun d => d.fishSize ≤ M) (fishOf M) := by
  refine ⟨fun d r _ => ?_, fun node d hn hd => ?_⟩
  · unfold fishOf share
    dsimp only
    by_cases h : d.fishSize = M
    · rw [if_pos h, if_pos h, if_pos h]
      ring
    · rw [if_neg h, if_neg h, if_neg h, add_zero]
  · unfold fishOf
    rw [process_fishSize, process_fish]
    by_cases h1 : node.state.fishSize = M
    · rw [if_pos h1, if_pos (by omega), if_pos (by omega)]
      by_cases h2 : d.fishSize = M
      · rw [if_pos h2, if_pos (by omega)]
      · rw [if_neg h2, if_neg (by omega)]
    · rw [if_neg h1]
      by_cases h2 : d.fishSize = M
      · rw [if_pos h2, if_pos (by omega), if_neg (by omega), if_pos (by omega)]
      · rw [if_neg h2, if_neg (by omega), add_zero]

theorem total_before {A : Type} [AddCommMonoid A] {f : Data → A} (h : Before R s) :
    total R f s = ((s.brought R).map f).sum := by
  have hp : s.flying R = [] := by
    rw [St.flying, List.filter_eq_nil_iff]
    exact fun p hp => by simpa using h.packets p hp
  have hn : ∀ i, massAt R f (s.nodes i) = 0 := fun i => massAt_out (h.nodes i)
  simp [total, hp, hn, St.brought, h.joined]

theorem brought_step {e : Ev n} (h : Stays P R s e) : s.brought R ⊆ (step P s e).brought R := by
  cases step_moves h with
  | idle hn hs hp hj =>
    intro d hd
    rw [St.brought, hj]
    exact hd
  | share i ratio hi h => rw [h]; exact List.Subset.refl _
  | merge i p node rest hi hr hp hnode hinit h => rw [h]; exact List.Subset.refl _
  | begin i node rest hi hnode hb hp h =>
    rw [h]
    exact List.filter_subset _ (List.subset_cons_self _ _)
  | enter i node p rest hi hnode hb hr hp h =>
    rw [h]
    exact List.filter_subset _ (List.subset_cons_self _ _)

/-- As long as all that was brought is `H`, so is all that is held. -/
theorem total_reach {A : Type} [AddCommMonoid A] {f : Data → A} {H : Data → Prop} (hf : Mass P H f)
    (hg : ∀ d m, Good P d m → (∀ c ∈ m, H c) → H d) (h : Reach P R s) (hb : ∀ d ∈ s.brought R, H d) :
    total R f s = ((s.brought R).map f).sum := by
  induction h with
  | start h => exact total_before h
  | step e hr hs ih =>
    have hb' := fun d hd => hb d (brought_step hs hd)
    have hk := kept_reach hr
    refine total_moves hf (step_moves hs) (fun i hi => ?_) (fun p hp => ?_) hb (ih hb')
    · exact hg _ _ (hk.nodes i hi).1 fun c hc => hb' c ((hk.nodes i hi).2 hc)
    · exact hg _ _ (hk.packets p hp).1 fun c hc => hb' c ((hk.packets p hp).2 hc)

theorem total_sum (h : Reach P R s) {i : Nat} (hi : P.min + P.max ≤ i) :
    total R (fun d => d.values i) s = ((s.brought R).map (fun d => d.values i)).sum :=
  total_reach (mass_sum hi) (fun _ _ hg _ => hg.sums i hi) h fun d hd => ((kept_reach h).begun d hd).2 i hi

theorem sum_fishOf {l : List Data} (hl : ∀ d ∈ l, d.fish = 1) (M : Nat) :
    (l.map (fishOf M)).sum = (l.countP (·.fishSize = M) : ℚ) := by
  induction l with
  | nil => rfl
  | cons d l ih =>
    have h1 := hl d List.mem_cons_self
    rw [List.map_cons, List.sum_cons, ih fun c hc => hl c (List.mem_cons_of_mem _ hc), List.countP_cons, fishOf, h1]
    by_cases hM : d.fishSize = M
    · simp only [hM, if_true, decide_true]
      push_cast
      ring
    · simp [hM]

theorem total_fish (h : Reach P R s) {M : Nat} (hM : ∀ d ∈ s.brought R, d.fishSize ≤ M) :
    total R (fishOf M) s = ((s.brought R).countP (·.fishSize = M) : ℚ) := by
  rw [total_reach (mass_fish M) ?_ h hM, sum_fishOf fun d hd => ((kept_reach h).begun d hd).1]
  intro d m hg hm
  obtain ⟨c, hc, e⟩ := hg.size
  exact e ▸ hm c hc

/-- The largest size brought is still held: its fish is. -/
theorem brought_le (h : Reach P R s) {M : Nat} (hn : ∀ i, InRound R (s.nodes i) → (s.nodes i).state.fishSize ≤ M)
    (hp : ∀ p ∈ s.flying R, p.1.fishSize ≤ M) : ∀ d ∈ s.brought R, d.fishSize ≤ M := by
  classical
  by_contra hlt
  push Not at hlt
  obtain ⟨d, hd, hdM⟩ := hlt
  obtain ⟨c, hc, hmax⟩ := (s.brought R).toFinset.exists_max_image (fun d : Data => d.fishSize)
    ⟨d, List.mem_toFinset.mpr hd⟩
  rw [List.mem_toFinset] at hc
  have hmax' : ∀ d ∈ s.brought R, d.fishSize ≤ c.fishSize := fun d hd => hmax d (List.mem_toFinset.mpr hd)
  have hlt : M < c.fishSize := hdM.trans_le (hmax' d hd)
  have htotal := total_fish h hmax'
  have hzero : total R (fishOf c.fishSize) s = 0 := by
    have h1 : ∀ i, massAt R (fishOf c.fishSize) (s.nodes i) = 0 := by
      intro i
      by_cases hi : InRound R (s.nodes i)
      · have := hn i hi
        rw [massAt_in hi, fishOf, if_neg (by omega)]
      · exact massAt_out hi
    have h2 : (s.flying R).map (fun p => fishOf c.fishSize p.1) = (s.flying R).map (fun _ => 0) := by
      refine List.map_congr_left fun p hp' => ?_
      have := hp p hp'
      rw [fishOf, if_neg (by omega)]
    simp [total, h1, h2]
  have hcount : 0 < (s.brought R).countP (·.fishSize = c.fishSize) :=
    List.countP_pos_iff.mpr ⟨c, hc, by simp⟩
  rw [hzero] at htotal
  exact hcount.ne (by exact_mod_cast htotal)

/-! ## Conservation -/

/-- A state's minimums and maximums are those of what was merged. -/
structure Extremes (P : Params) (d : Data) (m : List Data) : Prop where
  min : ∀ i, i < P.min → d.values i = (m.map (·.values i)).foldr Min.min ⊤
  max : ∀ i, P.min ≤ i → i < P.min + P.max → d.values i = (m.map (·.values i)).foldr Max.max ⊥

/-- The sums are what the nodes brought, the fish of the largest size held is one for each
    node that brought it, and the minimums and maximums are those of what was merged. -/
structure Conserved (P : Params) (R : BitVec 32) (s : St n) : Prop where
  sums : ∀ i, P.min + P.max ≤ i → total R (fun d => d.values i) s = ((s.brought R).map (fun d => d.values i)).sum
  fish : ∀ M, (∀ i, InRound R (s.nodes i) → (s.nodes i).state.fishSize ≤ M) → (∀ p ∈ s.flying R, p.1.fishSize ≤ M) →
    total R (fishOf M) s = ((s.brought R).countP (·.fishSize = M) : ℚ)
  nodes : ∀ i, InRound R (s.nodes i) → Extremes P (s.nodes i).state (s.merged i) ∧ s.merged i ⊆ s.brought R
  packets : ∀ p ∈ s.flying R, Extremes P p.1 p.2 ∧ p.2 ⊆ s.brought R

/-- While a round lasts nothing of it is lost. -/
theorem round_conserved (h : Reach P R s) : Conserved P R s := by
  have hk := kept_reach h
  refine ⟨fun i hi => total_sum h hi, fun M hn hp => total_fish h (brought_le h hn hp), fun i hi => ?_, fun p hp => ?_⟩
  · obtain ⟨hg, hsub⟩ := hk.nodes i hi
    exact ⟨⟨hg.mins, hg.maxs⟩, hsub⟩
  · obtain ⟨hg, hsub⟩ := hk.packets p hp
    exact ⟨⟨hg.mins, hg.maxs⟩, hsub⟩

/-- One minimum, one maximum and a sum. -/
def three : Params := ⟨1, 1, 1 / 1000, fun _ _ _ => true, 5⟩

def asleep : St 2 := ⟨fun _ => ⟨false, ⟨0, 0, 1, nothing three⟩, 0⟩, fun _ => [], [], []⟩

/-- Node 0 creates the network, node 1 joins it, and gets half of what node 0 has. -/
def shared : St 2 :=
  let own : Pull := ⟨some 7, fun _ => 3⟩
  let s1 := step three asleep (.create 0 own)
  let s2 := step three s1 (.join 1 ⟨41, 0, 1, nothing three⟩)
  let s3 := step three s2 (.sample 0 (1 / 2))
  step three s3 (.recv 1 0 own 2)

theorem reach_shared : Reach three 42 shared := by
  have h0 : Reach three 42 asleep := .start ⟨by decide +kernel, by decide +kernel, rfl⟩
  have h1 := h0.step (.create 0 ⟨some 7, fun _ => 3⟩) ⟨fun h => h, by decide +kernel⟩
  have h2 := h1.step (.join 1 ⟨41, 0, 1, nothing three⟩) ⟨fun h => h, by decide +kernel⟩
  have h3 := h2.step (.sample 0 (1 / 2)) ⟨fun h => h, by decide +kernel⟩
  refine h3.step (.recv 1 0 ⟨some 7, fun _ => 3⟩ 2) ⟨?_, by decide +kernel⟩
  intro ⟨p, hp, _, hd⟩
  revert hd
  decide +kernel

theorem round_conserved_example : Conserved three 42 shared := round_conserved reach_shared

end BubbleStorm.Topology.Gossip
