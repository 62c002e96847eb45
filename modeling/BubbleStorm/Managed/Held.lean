/-
  BubbleStorm.Managed.Held — what a storage peer holds, and what an operation sends.

  `held` reads what a peer holds off the log. Every operation appends to the log what
  `sendOrDelete` and `requestRange` send, so an operation is described by that list:
  `after` runs a list of actions from a content, and a peer hears only its own.
-/

import BubbleStorm.Managed.Frontend

namespace BubbleStorm.Managed

def Request.bubble {β ι α : Type} : Request β ι α → β
  | .insert bubble _ _ => bubble
  | .update bubble _ _ => bubble
  | .delete bubble _ => bubble

namespace Frontend

variable {δ σ β ι α Size Stats : Type}

/-! ## What a peer holds -/

section Held

abbrev Content (ι α : Type) := ι → Option α

abbrev Log (σ β ι α : Type) := List (StoragePeer σ × Action β ι α)

variable {q : StoragePeer σ} {b : β} {l : Log σ β ι α}

/-- No action of the list is about the bubble type at the peer. -/
def Silent (q : StoragePeer σ) (b : β) (l : Log σ β ι α) : Prop :=
  ∀ e ∈ l, e.1 = q → ∀ r, e.2 = .request r → r.bubble ≠ b

theorem silent_other (h : ∀ e ∈ l, e.1 ≠ q) : Silent q b l := fun e he hq => absurd hq (h e he)

theorem silent_flatMap {X : Type} {xs : List X} {out : X → Log σ β ι α} (h : ∀ y ∈ xs, Silent q b (out y)) :
    Silent q b (xs.flatMap out) := by
  intro e he hq r hr
  obtain ⟨y, hy, hey⟩ := List.mem_flatMap.mp he
  exact h y hy e hey hq r hr

/-- Requests to one peer. -/
def toPeer (q : StoragePeer σ) (rs : List (Request β ι α)) : Log σ β ι α := rs.map fun r => (q, .request r)

theorem silent_toPeer {q' : StoragePeer σ} {rs : List (Request β ι α)} (h : q' = q → ∀ r ∈ rs, r.bubble ≠ b) :
    Silent q b (toPeer q' rs) := by
  intro e he hq r hr
  obtain ⟨r', hr', rfl⟩ := List.mem_map.mp he
  cases hr
  exact h hq _ hr'

variable [DecidableEq σ] [DecidableEq β] [DecidableEq ι] {m : Content ι α}

/-- What a request does to the items of its bubble type. -/
def apply (m : Content ι α) : Request β ι α → Content ι α
  | .insert _ id data => Function.update m id (some data)
  | .update _ id data => Function.update m id (some data)
  | .delete _ id => Function.update m id none

def hear (q : StoragePeer σ) (b : β) (m : Content ι α) (e : StoragePeer σ × Action β ι α) : Content ι α :=
  if e.1 = q then
    match e.2 with
    | .request r => if r.bubble = b then apply m r else m
    | .position _ => m
    | .shutdown => m
  else m

/-- The items of bubble type `b` at the peer `q`, from `m`, after the actions of `l`. -/
def after (q : StoragePeer σ) (b : β) (m : Content ι α) (l : Log σ β ι α) : Content ι α := l.foldl (hear q b) m

/-- Everything sent by INSERT and UPDATE minus DELETE, in order. -/
def held (log : Log σ β ι α) (q : StoragePeer σ) (b : β) : Content ι α := after q b (fun _ => none) log

/-- The cache if the peer qualifies. -/
def share (cache : Table ι α) (qualifies : Bool) : Content ι α := fun id => if qualifies then cache.lookup id else none

@[simp] theorem after_nil : after q b m ([] : Log σ β ι α) = m := rfl

@[simp] theorem after_cons (e : StoragePeer σ × Action β ι α) : after q b m (e :: l) = after q b (hear q b m e) l := rfl

theorem after_append (l l' : Log σ β ι α) : after q b m (l ++ l') = after q b (after q b m l) l' := List.foldl_append

theorem held_append (l l' : Log σ β ι α) : held (l ++ l') q b = after q b (held l q b) l' := List.foldl_append

theorem Silent.after (h : Silent q b l) : after q b m l = m := by
  induction l generalizing m with
  | nil => rfl
  | cons e l ih =>
    have he : hear q b m e = m := by
      unfold hear
      by_cases hq : e.1 = q
      · rw [if_pos hq]
        split
        · rename_i r hr
          exact if_neg (h e (.head _) hq r hr)
        · rfl
        · rfl
      · exact if_neg hq
    rw [after_cons, he]
    exact ih fun a ha => h a (.tail _ ha)

/-- Of a list of pieces with keys of their own, all but one are silent. -/
theorem after_flatMap {X K : Type} {xs : List X} (key : X → K) (hn : (xs.map key).Nodup) {out : X → Log σ β ι α} {x : X}
    (hx : x ∈ xs) (h : ∀ y ∈ xs, key y ≠ key x → Silent q b (out y)) :
    after q b m (xs.flatMap out) = after q b m (out x) := by
  obtain ⟨l1, l2, rfl⟩ := List.append_of_mem hx
  rw [List.map_append, List.map_cons, List.nodup_append, List.nodup_cons] at hn
  obtain ⟨-, ⟨hx2, -⟩, h12⟩ := hn
  have h1 : Silent q b (l1.flatMap out) := by
    apply silent_flatMap
    intro y hy
    exact h y (List.mem_append_left _ hy) (h12 _ (List.mem_map_of_mem hy) _ (.head _))
  have h2 : Silent q b (l2.flatMap out) := by
    apply silent_flatMap
    intro y hy
    refine h y (List.mem_append_right _ (.tail _ hy)) fun hk => hx2 ?_
    rw [← hk]
    exact List.mem_map_of_mem hy
  rw [List.flatMap_append, List.flatMap_cons, after_append, after_append, h1.after, h2.after]

/-! ## Sending a cache -/

theorem after_toPeer_cons {r : Request β ι α} {rs : List (Request β ι α)} (h : r.bubble = b) :
    after q b m (toPeer q (r :: rs)) = after q b (apply m r) (toPeer q rs) := by
  show after q b (hear q b m (q, .request r)) _ = _
  rw [hear, if_pos rfl]
  exact congrArg (fun m' => after q b m' (toPeer q rs)) (if_pos h)

theorem after_inserts {es : List (Sigma fun _ : ι => α)} (hn : es.NodupKeys) :
    after q b m (toPeer q (es.map fun e => .insert b e.1 e.2)) = fun id => (List.dlookup id es).or (m id) := by
  induction es generalizing m with
  | nil => rfl
  | cons e es ih =>
    obtain ⟨hne, hn⟩ := List.nodupKeys_cons.mp hn
    rw [List.map_cons, after_toPeer_cons (b := b) rfl, ih hn]
    funext id
    by_cases hid : id = e.1
    · subst hid
      rw [List.dlookup_eq_none.mpr hne, List.dlookup_cons_eq]
      simp [apply]
    · rw [List.dlookup_cons_ne _ _ hid]
      simp [apply, hid]

theorem after_deletes {es : List (Sigma fun _ : ι => α)} (hn : es.NodupKeys) :
    after q b m (toPeer q (es.map fun e => .delete b e.1)) =
      fun id => if (List.dlookup id es).isSome then none else m id := by
  induction es generalizing m with
  | nil => rfl
  | cons e es ih =>
    obtain ⟨hne, hn⟩ := List.nodupKeys_cons.mp hn
    rw [List.map_cons, after_toPeer_cons (b := b) rfl, ih hn]
    funext id
    by_cases hid : id = e.1
    · subst hid
      rw [List.dlookup_eq_none.mpr hne, List.dlookup_cons_eq]
      simp [apply]
    · rw [List.dlookup_cons_ne _ _ hid]
      simp [apply, hid]

/-- All of the cache goes to a peer that has a part of it. -/
theorem after_insertReqs (bubble : BubbleType β ι α Size) (qualifies : Bool) :
    after q bubble.typeId (share bubble.cache qualifies) (toPeer q (insertReqs bubble)) = share bubble.cache true := by
  refine (after_inserts bubble.cache.nodupKeys).trans ?_
  funext id
  show (bubble.cache.lookup id).or (share bubble.cache qualifies id) = _
  cases qualifies with
  | false => exact Option.or_none
  | true => exact Option.or_self

/-- All of the cache is taken from a peer. -/
theorem after_deleteReqs (bubble : BubbleType β ι α Size) (qualifies : Bool) :
    after q bubble.typeId (share bubble.cache qualifies) (toPeer q (deleteReqs bubble)) = share bubble.cache false := by
  refine (after_deletes bubble.cache.nodupKeys).trans ?_
  funext id
  show (if (bubble.cache.lookup id).isSome then none else share bubble.cache qualifies id) = none
  rcases h : bubble.cache.lookup id with _ | x
  · cases qualifies with
    | false => rfl
    | true => exact h
  · rfl

end Held

/-! ## What the operations send -/

section Sends

variable {t : T δ σ β ι α Size Stats} {l l' : Log σ β ι α}

def T.logged (t : T δ σ β ι α Size Stats) (l : Log σ β ι α) : T δ σ β ι α Size Stats := { t with log := t.log ++ l }

@[simp] theorem T.logged_log : (t.logged l).log = t.log ++ l := rfl
@[simp] theorem T.logged_pool : (t.logged l).pool = t.pool := rfl
@[simp] theorem T.logged_types : (t.logged l).types = t.types := rfl
@[simp] theorem T.logged_stats : (t.logged l).stats = t.stats := rfl
@[simp] theorem T.logged_stats' : (t.logged l).stats' = t.stats' := rfl

theorem T.logged_nil : t.logged [] = t := by
  unfold T.logged
  rw [List.append_nil]

theorem T.logged_logged : (t.logged l).logged l' = t.logged (l ++ l') := by
  unfold T.logged
  rw [List.append_assoc]

/-- A fold whose steps only log. -/
theorem foldl_logged {X : Type} {g : T δ σ β ι α Size Stats → X → T δ σ β ι α Size Stats} {f : X → Log σ β ι α}
    (h : ∀ l x, g (t.logged l) x = (t.logged l).logged (f x)) (xs : List X) :
    xs.foldl g t = t.logged (xs.flatMap f) := by
  have from_log : ∀ l, xs.foldl g (t.logged l) = t.logged (l ++ xs.flatMap f) := by
    induction xs with
    | nil => intro l; exact congrArg t.logged (List.append_nil l).symm
    | cons x xs ih =>
      intro l
      rw [List.foldl_cons, h, T.logged_logged, ih, List.flatMap_cons, List.append_assoc]
  have h0 := from_log []
  rwa [T.logged_nil, List.nil_append] at h0

theorem sendAll_eq (q : StoragePeer σ) (rs : List (Request β ι α)) : sendAll t q rs = t.logged (toPeer q rs) := by
  have h := foldl_logged (t := t) (g := fun t r => send t q r) (f := fun r => [(q, .request r)]) (fun _ _ => rfl) rs
  rw [← List.map_eq_flatMap] at h
  exact h

/-- What `sendOrDelete` sends to a peer that had the bubble, and has to have it. -/
def adjusted (q : StoragePeer σ) (had has : Bool) (bubble : BubbleType β ι α Size) : Log σ β ι α :=
  match had, has with
  | false, false => []
  | false, true => toPeer q (insertReqs bubble)
  | true, false => toPeer q (deleteReqs bubble)
  | true, true => []

theorem silent_adjusted {q q' : StoragePeer σ} {b : β} {bubble : BubbleType β ι α Size} (had has : Bool)
    (h : q' = q → bubble.typeId ≠ b) : Silent q b (adjusted q' had has bubble) := by
  have ins : Silent q b (toPeer q' (insertReqs bubble)) := by
    refine silent_toPeer fun hq r hr => ?_
    obtain ⟨e, -, rfl⟩ := List.mem_map.mp hr
    exact h hq
  have del : Silent q b (toPeer q' (deleteReqs bubble)) := by
    refine silent_toPeer fun hq r hr => ?_
    obtain ⟨e, -, rfl⟩ := List.mem_map.mp hr
    exact h hq
  cases had with
  | false =>
    cases has with
    | false => exact nofun
    | true => exact ins
  | true =>
    cases has with
    | false => exact del
    | true => exact nofun

theorem adjusted_to {q : StoragePeer σ} {had has : Bool} {bubble : BubbleType β ι α Size} :
    ∀ e ∈ adjusted q had has bubble, e.1 = q := by
  have peer : ∀ rs : List (Request β ι α), ∀ e ∈ toPeer q rs, e.1 = q := by
    intro rs e he
    obtain ⟨r, -, rfl⟩ := List.mem_map.mp he
    rfl
  cases had with
  | false =>
    cases has with
    | false => exact nofun
    | true => exact peer _
  | true =>
    cases has with
    | false => exact peer _
    | true => exact nofun

/-- A peer that has its share by the old measure has its share by the new one. -/
theorem after_adjusted [DecidableEq σ] [DecidableEq β] [DecidableEq ι] (q : StoragePeer σ) (had has : Bool)
    (bubble : BubbleType β ι α Size) :
    after q bubble.typeId (share bubble.cache had) (adjusted q had has bubble) = share bubble.cache has := by
  cases had with
  | false =>
    cases has with
    | false => rfl
    | true => exact after_insertReqs bubble false
  | true =>
    cases has with
    | false => exact after_deleteReqs bubble true
    | true => rfl

variable (D : Densities δ Size Stats)

def positions (t : T δ σ β ι α Size Stats) (c : Change δ σ) : Log σ β ι α :=
  if D.toPosition t.stats c.new = D.toPosition t.stats c.old then []
  else [(c.storage, .position (D.toPosition t.stats c.new))]

theorem updatePos_eq (changes : List (Change δ σ)) :
    changes.foldl (updatePos D) t = t.logged (changes.flatMap (positions D t)) := by
  refine foldl_logged (fun l c => ?_) changes
  unfold updatePos positions
  rw [T.logged_stats]
  split
  · exact T.logged_nil.symm
  · rfl

theorem silent_positions (changes : List (Change δ σ)) (q : StoragePeer σ) (b : β) :
    Silent q b (changes.flatMap (positions D t)) := by
  refine silent_flatMap fun c _ e he _ r hr => ?_
  unfold positions at he
  split at he
  · cases he
  · rw [List.mem_singleton.mp he] at hr
    cases hr

/-- A request goes to every peer of a list. -/
theorem send_eq (r : Request β ι α) (it : List (δ × StoragePeer σ)) :
    it.foldl (fun t e => send t e.2 r) t = t.logged (it.flatMap fun e => toPeer e.2 [r]) :=
  foldl_logged (g := fun t e => send t e.2 r) (f := fun e => toPeer e.2 [r]) (fun _ _ => rfl) it

variable [Preorder δ] [DecidableLT δ]

theorem sendOrDelete_eq (q : StoragePeer σ) (oldDensity newDensity : δ) (bubble : BubbleType β ι α Size) (oldSize newSize : δ) :
    sendOrDelete t q oldDensity newDensity bubble oldSize newSize =
      t.logged (adjusted q (decide (oldDensity < oldSize)) (decide (newDensity < newSize)) bubble) := by
  unfold sendOrDelete
  generalize decide (oldDensity < oldSize) = had
  generalize decide (newDensity < newSize) = has
  cases had with
  | false =>
    cases has with
    | false => exact T.logged_nil.symm
    | true => exact sendAll_eq q _
  | true =>
    cases has with
    | false => exact sendAll_eq q _
    | true => exact T.logged_nil.symm

/-- What `sendItems` sends. -/
def items (t : T δ σ β ι α Size Stats) (q : StoragePeer σ) (newDensity oldDensity : δ) : Log σ β ι α :=
  t.types.flatMap fun b =>
    adjusted q (decide (oldDensity < bubbleSize D t b)) (decide (newDensity < bubbleSize D t b)) b

theorem sendItems_eq (q : StoragePeer σ) (newDensity oldDensity : δ) :
    sendItems D t q newDensity oldDensity = t.logged (items D t q newDensity oldDensity) :=
  foldl_logged (fun _ _ => sendOrDelete_eq ..) t.types

theorem items_to {q : StoragePeer σ} {newDensity oldDensity : δ} : ∀ e ∈ items D t q newDensity oldDensity, e.1 = q := by
  intro e he
  obtain ⟨b, -, heb⟩ := List.mem_flatMap.mp he
  exact adjusted_to e heb

/-- What a round switch sends about a bubble type. -/
def adjustments (t : T δ σ β ι α Size Stats) (changes : List (Change δ σ)) (b : BubbleType β ι α Size) : Log σ β ι α :=
  changes.flatMap fun c =>
    adjusted c.storage (decide (c.old < bubbleSize' D t b)) (decide (c.new < bubbleSize D t b)) b

theorem adjustBubble_eq (changes : List (Change δ σ)) (b : BubbleType β ι α Size) :
    adjustBubble D t changes b = t.logged (adjustments D t changes b) :=
  foldl_logged (fun _ _ => sendOrDelete_eq ..) changes

theorem adjustBubbles_eq (changes : List (Change δ σ)) :
    t.types.foldl (fun t b => adjustBubble D t changes b) t = t.logged (t.types.flatMap (adjustments D t changes)) :=
  foldl_logged (fun _ _ => adjustBubble_eq ..) t.types

end Sends

end Frontend

end BubbleStorm.Managed
