/-
  BubbleStorm.Topology.Permute — the lazy random permutation of `Locations`, and the walks
  over the neighbours made from it.

  `permute` shuffles from both ends: an iterator that is asked for a position no one has
  asked for before swaps it with a random one of the range `[front, back)` that is not yet
  fixed. What is left to compute is a thunk, which may be forced at any time and any
  number of times (`Reach`), and all thunks share the one state. `Fixed` is the invariant:
  the positions outside of the range never change again, and the arrangement as a whole
  stays a permutation.
  - `Fixed.force`: forcing a thunk fixes at most the one position it asks for.
  - `reach_permutation`: in every run all answers come from one permutation, forwards in
    its order and backwards in the reverse.
  - `walk_visits`: over the slots of the locations a walk meets every neighbour once, but
    for the locations that hold the excluded conversation.
-/

import Mathlib.Data.List.Perm.Subperm
import Mathlib.Data.List.Nodup
import Mathlib.Data.List.Range
import Mathlib.Logic.Function.Basic
import BubbleStorm.Lib.Outcome

namespace BubbleStorm.Topology.Permute

inductive Fault
  | option
  | subscript
  | div
  deriving Repr, DecidableEq

/-- A suspended call of `forward i`, or of `backward (i - 1)`. -/
inductive Thunk
  | forward (i : Nat)
  | backward (i : Nat)
  deriving Repr, DecidableEq

inductive Iterator (α : Type)
  | EOF
  | SKIP (rest : Thunk)
  | VALUE (x : α) (rest : Thunk)
  deriving Repr, DecidableEq

/-- What the thunks share; `[front, back)` is the unpermuted range. -/
structure State where
  count : Nat
  front : Nat
  back : Nat
  map : Nat → Option Nat

section permute

variable (hash : Nat → Nat → Nat) (seed n : Nat)

def valOf {α : Type} : Option α → Except Fault α
  | some x => .ok x
  | none => .error .option

def rand (p : State) (m : Nat) : Except Fault (Nat × State) :=
  if m = 0 then .error .div else .ok (hash p.count seed % m, { p with count := p.count + 1 })

/-- What position `i` holds. -/
def get (p : State) (i : Nat) : Nat := (p.map i).getD i

def swap (p : State) (i : Nat) : Except Fault (Nat × State) := do
  let (r, p) ← rand hash seed p (p.back - p.front)
  let j := p.front + r
  let out := get p j
  let p := { p with map := Function.update p.map j (some (get p i)) }
  pure (out, { p with map := Function.update p.map i (some out) })

def swapFront (p : State) : Except Fault (Nat × State) := do
  let (out, p) ← swap hash seed p p.front
  pure (out, { p with front := p.front + 1 })

def swapBack (p : State) : Except Fault (Nat × State) := do
  let (out, p) ← swap hash seed p (p.back - 1)
  pure (out, { p with back := p.back - 1 })

def cached (p : State) (i : Nat) (f : State → Except Fault (Nat × State)) : Except Fault (Nat × State) :=
  if i < p.front ∨ i ≥ p.back then do
    let x ← valOf (p.map i)
    pure (x, p)
  else f p

def force (p : State) : Thunk → Except Fault (Iterator Nat × State)
  | .forward i =>
    if i = n then pure (.EOF, p)
    else do
      let (x, p) ← cached p i (swapFront hash seed)
      pure (.VALUE x (.forward (i + 1)), p)
  | .backward 0 => pure (.EOF, p)
  | .backward (i + 1) => do
    let (x, p) ← cached p i (swapBack hash seed)
    pure (.VALUE x (.backward i), p)

/-- Both iterators, each with its first value. -/
def permute : Except Fault (Iterator Nat × Iterator Nat × State) := do
  let p : State := { count := 0, front := 0, back := n, map := fun _ => none }
  let (forward, p) ← force hash seed n p (.forward 0)
  let (backward, p) ← force hash seed n p (.backward n)
  pure (forward, backward, p)

/-- Every thunk that was handed out may be forced, in any order and again. `seen` are the
    answers so far. -/
inductive Reach : List (Thunk × Iterator Nat) → State → Prop
  | start {f b : Iterator Nat} {p : State} (h : permute hash seed n = .ok (f, b, p)) :
    Reach [(.forward 0, f), (.backward n, b)] p
  | demand {seen : List (Thunk × Iterator Nat)} {p p' : State} {t t' : Thunk} {x : Nat} {a : Iterator Nat}
    (h : Reach seen p) (ht : (t', .VALUE x t) ∈ seen) (hf : force hash seed n p t = .ok (a, p')) :
    Reach (seen ++ [(t, a)]) p'

end permute

/-! ## The walks over the neighbours -/

section walk

variable {ν χ : Type} [DecidableEq χ]

/-- The links of a location. -/
structure Location (ν : Type) where
  master : Option ν
  slave : Option ν
  deriving Repr, DecidableEq

/-- `Array.sub`. -/
def sub (table : List (Location ν)) (i : Nat) : Except Fault (Location ν) :=
  match table[i]? with
  | some l => .ok l
  | none => .error .subscript

def excluded (conversation : ν → χ) (excludedConversation : Option χ) (n : ν) : Bool :=
  match excludedConversation with
  | some exC => exC = conversation n
  | none => false

/-- Slot `i` of the neighbours: the masters of all locations and then the slaves. -/
def toTotalNeighbour (conversation : ν → χ) (table : List (Location ν)) (excludedConversation : Option χ) (i : Nat) :
    Except Fault (Option ν) := do
  let locations := table.length
  let pickMaster := decide (i < locations)
  let i := if i < locations then i else i - locations
  let l ← sub table i
  if (l.master.map (excluded conversation excludedConversation)).getD false ||
      (l.slave.map (excluded conversation excludedConversation)).getD false
  then pure none
  else if pickMaster then pure l.master else pure l.slave

/-- `Iterator.mapPartial`, at the item the iterator is at. -/
def mapPartial (f : Nat → Except Fault (Option ν)) : Iterator Nat → Except Fault (Iterator ν)
  | .EOF => pure .EOF
  | .SKIP r => pure (.SKIP r)
  | .VALUE x r => do
    match ← f x with
    | none => pure (.SKIP r)
    | some y => pure (.VALUE y r)

end walk

/-! ## What is fixed -/

section fixed

variable {hash : Nat → Nat → Nat} {seed n : Nat}

/-- Position `i` will not change any more. -/
def State.Done (p : State) (i : Nat) : Prop := i < p.front ∨ p.back ≤ i

structure Fixed (n : Nat) (p : State) : Prop where
  range : p.front ≤ p.back ∧ p.back ≤ n
  inside : ∀ i, i < n → get p i < n
  inj : ∀ i j, i < n → j < n → get p i = get p j → i = j
  stored : ∀ i, i < n → p.Done i → p.map i = some (get p i)

/-- What was fixed before stays. -/
def Extends (p p' : State) : Prop := ∀ i, p.Done i → p'.Done i ∧ p'.map i = p.map i

theorem Extends.refl (p : State) : Extends p p := fun _ h => ⟨h, rfl⟩

theorem Extends.trans {p p' p'' : State} (h : Extends p p') (h' : Extends p' p'') : Extends p p'' := by
  intro i hi
  obtain ⟨h1, e1⟩ := h i hi
  obtain ⟨h2, e2⟩ := h' i h1
  exact ⟨h2, e2.trans e1⟩

theorem fixed_start (n : Nat) : Fixed n { count := 0, front := 0, back := n, map := fun _ => none } := by
  refine ⟨⟨Nat.zero_le _, Nat.le_refl _⟩, fun i hi => hi, fun i j _ _ h => h, ?_⟩
  rintro i hi (h | h)
  · exact absurd h (Nat.not_lt_zero i)
  · exact absurd hi (Nat.not_lt.mpr h)

variable (hash seed) in
/-- A swap exchanges what two positions of the range hold. -/
theorem swap_eq {p : State} {i : Nat} (h1 : p.front ≤ i) (h2 : i < p.back) :
    ∃ j p', swap hash seed p i = .ok (get p j, p') ∧ p.front ≤ j ∧ j < p.back ∧ p'.front = p.front ∧ p'.back = p.back ∧
      p'.map i = some (get p j) ∧ (∀ k, get p' k = if k = i then get p j else if k = j then get p i else get p k) ∧
      ∀ k, k ≠ i → k ≠ j → p'.map k = p.map k := by
  have hm : p.back - p.front ≠ 0 := by omega
  have hr := Nat.mod_lt (hash p.count seed) (Nat.pos_of_ne_zero hm)
  obtain ⟨j, hj⟩ : ∃ j, p.front + hash p.count seed % (p.back - p.front) = j := ⟨_, rfl⟩
  refine ⟨j, { p with
    count := p.count + 1
    map := Function.update (Function.update p.map j (some (get p i))) i (some (get p j)) }, ?_, by omega, by omega, rfl, rfl,
    ?_, ?_, ?_⟩
  · simp only [Permute.swap, rand, hm, if_false, ← hj]
    rfl
  · exact Function.update_self _ _ _
  · intro k
    by_cases hk : k = i
    · subst hk
      simp [get]
    · by_cases hkj : k = j
      · subst hkj
        simp [get, hk]
      · simp [get, hk, hkj]
  · intro k hk hkj
    simp [hk, hkj]

/-- The range shrinks to `[f, b)` by the one position that was swapped. -/
theorem Fixed.shrink {p q : State} (F : Fixed n p) {i j f b : Nat} (h1 : p.front ≤ i) (h2 : i < p.back)
    (hj1 : p.front ≤ j) (hj2 : j < p.back) (hmap : q.map i = some (get p j))
    (hget : ∀ k, get q k = if k = i then get p j else if k = j then get p i else get p k)
    (hrest : ∀ k, k ≠ i → k ≠ j → q.map k = p.map k) (hf : q.front = f) (hb : q.back = b)
    (hfb : (f = p.front + 1 ∧ b = p.back ∧ i = p.front) ∨ (f = p.front ∧ b = p.back - 1 ∧ i = p.back - 1)) :
    Fixed n q ∧ Extends p q ∧ q.Done i := by
  have hbn := F.range.2
  refine ⟨⟨by omega, ?_, ?_, ?_⟩, ?_, ?_⟩
  · intro k hk
    rw [hget]
    split
    · exact F.inside j (by omega)
    · split
      · exact F.inside i (by omega)
      · exact F.inside k hk
  · intro k l hk hl hkl
    rw [hget, hget] at hkl
    have hin : j < n := by omega
    have hi : i < n := by omega
    have inj := F.inj
    split at hkl <;> split at hkl <;> (try split at hkl) <;> (try split at hkl) <;>
      first
        | omega
        | (have same := inj _ _ (by omega) (by omega) hkl; omega)
  · intro k hk hd
    by_cases hki : k = i
    · subst hki
      rw [hmap, hget, if_pos rfl]
    · have hd' : p.Done k := by
        unfold State.Done at hd ⊢
        omega
      have hkj : k ≠ j := by
        unfold State.Done at hd'
        omega
      rw [hrest k hki hkj, hget, if_neg hki, if_neg hkj]
      exact F.stored k hk hd'
  · intro k hd
    unfold State.Done at hd ⊢
    exact ⟨by omega, hrest k (by omega) (by omega)⟩
  · unfold State.Done
    omega

/-- A thunk that can be handed out: the position before it is fixed. -/
def Ready (n : Nat) (p : State) : Thunk → Prop
  | .forward i => i ≤ n ∧ (i = 0 ∨ p.Done (i - 1))
  | .backward i => i ≤ n ∧ (i = n ∨ p.Done i)

/-- What the arrangement of `p` says at a thunk. -/
def Answered (n : Nat) (p : State) : Thunk → Iterator Nat → Prop
  | .forward i, a => i = n ∧ a = .EOF ∨ i < n ∧ p.Done i ∧ a = .VALUE (get p i) (.forward (i + 1))
  | .backward 0, a => a = .EOF
  | .backward (i + 1), a => i < n ∧ p.Done i ∧ a = .VALUE (get p i) (.backward i)

theorem Extends.get {p p' : State} (E : Extends p p') {i : Nat} (h : p.Done i) : get p' i = get p i := by
  unfold Permute.get
  rw [(E i h).2]

theorem Ready.mono {p p' : State} (E : Extends p p') {t : Thunk} (h : Ready n p t) : Ready n p' t := by
  cases t with
  | forward i => exact ⟨h.1, h.2.imp_right fun hd => (E _ hd).1⟩
  | backward i => exact ⟨h.1, h.2.imp_right fun hd => (E _ hd).1⟩

theorem Answered.mono {p p' : State} (E : Extends p p') {t : Thunk} {a : Iterator Nat} (h : Answered n p t a) :
    Answered n p' t a := by
  cases t with
  | forward i =>
    refine h.imp_right fun ⟨hi, hd, ha⟩ => ⟨hi, (E _ hd).1, ?_⟩
    rw [E.get hd, ha]
  | backward i =>
    cases i with
    | zero => exact h
    | succ i =>
      obtain ⟨hi, hd, ha⟩ := h
      exact ⟨hi, (E _ hd).1, by rw [E.get hd, ha]⟩

/-- The thunk of an answer is ready. -/
theorem Answered.ready {p : State} {t t' : Thunk} {x : Nat} (h : Answered n p t (.VALUE x t')) : Ready n p t' := by
  cases t with
  | forward i =>
    rcases h with ⟨-, ha⟩ | ⟨hi, hd, ha⟩
    · cases ha
    · cases ha
      exact ⟨by omega, .inr hd⟩
  | backward i =>
    cases i with
    | zero => cases h
    | succ i =>
      obtain ⟨hi, hd, ha⟩ := h
      cases ha
      exact ⟨by omega, .inr hd⟩

theorem Fixed.cached {p : State} (F : Fixed n p) {i : Nat} (hi : i < n) (hd : p.Done i)
    (f : State → Except Fault (Nat × State)) : cached p i f = .ok (get p i, p) := by
  rw [Permute.cached, if_pos (show i < p.front ∨ i ≥ p.back from hd), F.stored i hi hd]
  rfl

variable (hash seed) in
/-- Forcing a thunk answers it and fixes what it asked for. -/
theorem Fixed.force {p : State} (F : Fixed n p) {t : Thunk} (h : Ready n p t) :
    ∃ a p', force hash seed n p t = .ok (a, p') ∧ Fixed n p' ∧ Extends p p' ∧ Answered n p' t a := by
  cases t with
  | forward i =>
    obtain ⟨hin, hi⟩ := h
    by_cases hn : i = n
    · refine ⟨.EOF, p, ?_, F, .refl p, .inl ⟨hn, rfl⟩⟩
      rw [Permute.force, if_pos hn]
      rfl
    · have hlt : i < n := by omega
      by_cases hd : p.Done i
      · refine ⟨_, p, ?_, F, .refl p, .inr ⟨hlt, hd, rfl⟩⟩
        rw [Permute.force, if_neg hn, F.cached hlt hd]
        rfl
      · have hif : i = p.front ∧ i < p.back := by
          unfold State.Done at hd hi
          omega
        obtain ⟨hif, hib⟩ := hif
        subst hif
        obtain ⟨j, p', hs, hj1, hj2, hf, hb, hm, hg, hr⟩ := swap_eq hash seed (Nat.le_refl _) hib
        obtain ⟨F', E, hd'⟩ := F.shrink (q := { p' with front := p'.front + 1 }) (Nat.le_refl _) hib hj1 hj2 hm hg hr rfl rfl
          (.inl ⟨by simp only [hf], hb, rfl⟩)
        refine ⟨.VALUE (get p j) (.forward (p.front + 1)), { p' with front := p'.front + 1 }, ?_, F', E, .inr ⟨hlt, hd', ?_⟩⟩
        · rw [Permute.force, if_neg hn, Permute.cached, if_neg (by omega), swapFront, hs]
          rfl
        · rw [show get { p' with front := p'.front + 1 } p.front = get p' p.front from rfl, hg, if_pos rfl]
  | backward i =>
    cases i with
    | zero => exact ⟨.EOF, p, rfl, F, .refl p, rfl⟩
    | succ i =>
      obtain ⟨hin, hi⟩ := h
      have hlt : i < n := by omega
      by_cases hd : p.Done i
      · refine ⟨_, p, ?_, F, .refl p, ⟨hlt, hd, rfl⟩⟩
        rw [Permute.force, F.cached hlt hd]
        rfl
      · have hib : i = p.back - 1 ∧ p.front ≤ i ∧ i < p.back := by
          have := F.range
          unfold State.Done at hd hi
          omega
        obtain ⟨hib, hif, hlb⟩ := hib
        obtain ⟨j, p', hs, hj1, hj2, hf, hb, hm, hg, hr⟩ := swap_eq hash seed hif hlb
        obtain ⟨F', E, hd'⟩ := F.shrink (q := { p' with back := p'.back - 1 }) hif hlb hj1 hj2 hm hg hr rfl rfl
          (.inr ⟨hf, by simp only [hb], hib⟩)
        refine ⟨.VALUE (get p j) (.backward i), { p' with back := p'.back - 1 }, ?_, F', E, ⟨hlt, hd', ?_⟩⟩
        · rw [Permute.force, Permute.cached, if_neg (by omega), swapBack, ← hib, hs]
          rfl
        · rw [show get { p' with back := p'.back - 1 } i = get p' i from rfl, hg, if_pos rfl]

variable (hash seed n) in
theorem permute_fixed : ∃ f b p, permute hash seed n = .ok (f, b, p) ∧ Fixed n p ∧ Answered n p (.forward 0) f ∧
    Answered n p (.backward n) b := by
  obtain ⟨f, p₁, h₁, F₁, E₁, A₁⟩ := (fixed_start n).force hash seed (t := .forward 0) ⟨Nat.zero_le _, .inl rfl⟩
  obtain ⟨b, p₂, h₂, F₂, E₂, A₂⟩ := F₁.force hash seed (t := .backward n) ⟨Nat.le_refl _, .inl rfl⟩
  refine ⟨f, b, p₂, ?_, F₂, A₁.mono E₂, A₂⟩
  rw [permute, h₁]
  show (Permute.force hash seed n p₁ (.backward n) >>= _) = _
  rw [h₂]
  rfl

theorem Reach.fixed {seen : List (Thunk × Iterator Nat)} {p : State} (R : Reach hash seed n seen p) :
    Fixed n p ∧ ∀ x ∈ seen, Answered n p x.1 x.2 := by
  induction R with
  | @start f b p h =>
    obtain ⟨f', b', p', h', F, Af, Ab⟩ := permute_fixed hash seed n
    rw [h'] at h
    cases h
    refine ⟨F, ?_⟩
    intro x hx
    simp only [List.mem_cons, List.not_mem_nil, or_false] at hx
    rcases hx with rfl | rfl
    · exact Af
    · exact Ab
  | @demand seen p p' t t' x a h ht hf ih =>
    obtain ⟨F, A⟩ := ih
    obtain ⟨a', p₁, h₁, F₁, E₁, A₁⟩ := F.force hash seed (A _ ht).ready
    rw [hf] at h₁
    cases h₁
    refine ⟨F₁, ?_⟩
    intro y hy
    rcases List.mem_append.mp hy with hy | hy
    · exact (A y hy).mono E₁
    · rw [List.mem_singleton.mp hy]
      exact A₁

/-! ## The permutation -/

/-- The positions from first to last. -/
def arrangement (n : Nat) (p : State) : List Nat := (List.range n).map (get p)

theorem Fixed.perm {p : State} (F : Fixed n p) : (arrangement n p).Perm (List.range n) := by
  have hnd : (arrangement n p).Nodup := by
    apply List.Nodup.map_on
    · intro i hi j hj h
      exact F.inj i j (List.mem_range.mp hi) (List.mem_range.mp hj) h
    · exact List.nodup_range
  have hsub : arrangement n p ⊆ List.range n := by
    intro x hx
    obtain ⟨i, hi, rfl⟩ := List.mem_map.mp hx
    exact List.mem_range.mpr (F.inside i (List.mem_range.mp hi))
  exact (hnd.subperm hsub).perm_of_length_le (by simp [arrangement])

/-- What a permutation answers at a thunk. -/
def answer (π : List Nat) : Thunk → Iterator Nat
  | .forward i => (π[i]?).elim .EOF fun x => .VALUE x (.forward (i + 1))
  | .backward 0 => .EOF
  | .backward (i + 1) => (π[i]?).elim .EOF fun x => .VALUE x (.backward i)

theorem answer_mem {π : List Nat} {t t' : Thunk} {x : Nat} (h : answer π t = .VALUE x t') : x ∈ π := by
  cases t with
  | forward i =>
    rw [answer] at h
    cases hx : π[i]? with
    | none => simp [hx] at h
    | some y =>
      simp only [hx, Option.elim_some, Iterator.VALUE.injEq] at h
      exact h.1 ▸ List.mem_of_getElem? hx
  | backward i =>
    cases i with
    | zero => cases h
    | succ i =>
      rw [answer] at h
      cases hx : π[i]? with
      | none => simp [hx] at h
      | some y =>
        simp only [hx, Option.elim_some, Iterator.VALUE.injEq] at h
        exact h.1 ▸ List.mem_of_getElem? hx

theorem arrangement_get {p : State} {i : Nat} (h : i < n) : (arrangement n p)[i]? = some (get p i) := by
  simp [arrangement, h]

theorem Answered.answer {p : State} {t : Thunk} {a : Iterator Nat} (h : Answered n p t a) :
    a = answer (arrangement n p) t := by
  cases t with
  | forward i =>
    rcases h with ⟨rfl, rfl⟩ | ⟨hi, -, rfl⟩
    · simp [Permute.answer, arrangement]
    · rw [Permute.answer, arrangement_get hi]
      rfl
  | backward i =>
    cases i with
    | zero => exact h
    | succ i =>
      obtain ⟨hi, -, rfl⟩ := h
      rw [Permute.answer, arrangement_get hi]
      rfl

/-- In every run the answers come from one permutation, and no thunk raises. -/
theorem Reach.permutation {seen : List (Thunk × Iterator Nat)} {p : State} (R : Reach hash seed n seen p) :
    (arrangement n p).Perm (List.range n) ∧ (∀ x ∈ seen, x.2 = answer (arrangement n p) x.1) ∧
      ∀ t' x t, (t', .VALUE x t) ∈ seen → ∃ y, force hash seed n p t = .ok y := by
  obtain ⟨F, A⟩ := R.fixed
  refine ⟨F.perm, fun x hx => (A x hx).answer, ?_⟩
  intro t' x t ht
  obtain ⟨a, p', h, -⟩ := F.force hash seed (A _ ht).ready
  exact ⟨_, h⟩

end fixed

/-! ## What the walks visit -/

section visits

variable {ν χ : Type} [DecidableEq χ] (conversation : ν → χ) (table : List (Location ν)) (excludedConversation : Option χ)

/-- The location holds the excluded conversation. -/
def Location.holds (l : Location ν) : Bool :=
  (l.master.map (excluded conversation excludedConversation)).getD false ||
    (l.slave.map (excluded conversation excludedConversation)).getD false

/-- The neighbours of the locations that do not hold the excluded conversation. -/
def otherNeighbours : List ν :=
  table.filterMap (fun l => if l.holds conversation excludedConversation then none else l.master) ++
    table.filterMap (fun l => if l.holds conversation excludedConversation then none else l.slave)

def Iterator.value {α : Type} : Iterator α → Option α
  | .VALUE x _ => some x
  | _ => none

def pick (i : Nat) : Option ν :=
  if i < table.length then (table[i]?).bind fun l => if l.holds conversation excludedConversation then none else l.master
  else (table[i - table.length]?).bind fun l => if l.holds conversation excludedConversation then none else l.slave

theorem toTotalNeighbour_eq {i : Nat} (h : i < table.length * 2) :
    toTotalNeighbour conversation table excludedConversation i = .ok (pick conversation table excludedConversation i) := by
  unfold toTotalNeighbour pick
  by_cases hi : i < table.length
  · have hx := List.getElem?_eq_getElem hi
    simp only [hi, if_true, decide_true, sub, hx]
    show (if Location.holds conversation excludedConversation table[i] then _ else _) = _
    by_cases hh : Location.holds conversation excludedConversation table[i]
    · simp [hh]
      rfl
    · simp [hh]
      rfl
  · have hx := List.getElem?_eq_getElem (show i - table.length < table.length by omega)
    simp only [hi, if_false, decide_false, sub, hx]
    show (if Location.holds conversation excludedConversation table[i - table.length] then _ else _) = _
    by_cases hh : Location.holds conversation excludedConversation table[i - table.length]
    · simp [hh]
      rfl
    · simp [hh]
      rfl

theorem filterMap_range {α β : Type} (l : List α) (f : α → Option β) :
    (List.range l.length).filterMap (fun i => (l[i]?).bind f) = l.filterMap f := by
  have h : l = (List.range l.length).filterMap (fun i => l[i]?) := by
    induction l with
    | nil => rfl
    | cons x l ih =>
      rw [List.length_cons, List.range_succ_eq_map, List.filterMap_cons, List.filterMap_map]
      simp only [List.getElem?_cons_zero]
      congr 1
  conv => rhs; rw [h, List.filterMap_filterMap]

theorem pick_range :
    (List.range (table.length * 2)).filterMap (pick conversation table excludedConversation) =
      otherNeighbours conversation table excludedConversation := by
  rw [Nat.mul_two, List.range_add, List.filterMap_append, otherNeighbours, ← filterMap_range table, ← filterMap_range table,
    List.filterMap_map]
  congr 1
  · apply List.filterMap_congr
    intro i hi
    rw [pick, if_pos (List.mem_range.mp hi)]
  · apply List.filterMap_congr
    intro i _
    simp only [Function.comp, pick]
    rw [if_neg (by omega), Nat.add_sub_cancel_left]

/-- The neighbour the mapped iterator shows at a thunk, if it does not skip. -/
def shown (π : List Nat) (t : Thunk) : Option ν :=
  match mapPartial (toTotalNeighbour conversation table excludedConversation) (answer π t) with
  | .ok a => a.value
  | .error _ => none

/-- The thunks of a forward walk to the end, and of a backward one. -/
def forwards (n : Nat) : List Thunk := (List.range (n + 1)).map .forward

def backwards (n : Nat) : List Thunk := (List.range (n + 1)).reverse.map .backward

variable {conversation table excludedConversation}

theorem visit_eq {x : Nat} (hx : x < table.length * 2) (t : Thunk) :
    (mapPartial (toTotalNeighbour conversation table excludedConversation) (.VALUE x t)) =
      .ok ((pick conversation table excludedConversation x).elim (.SKIP t) fun y => .VALUE y t) := by
  rw [mapPartial, toTotalNeighbour_eq conversation table excludedConversation hx]
  cases pick conversation table excludedConversation x <;> rfl

variable {π : List Nat} (hπ : π.Perm (List.range (table.length * 2)))
include hπ

theorem perm_lt {x : Nat} (hx : x ∈ π) : x < table.length * 2 := List.mem_range.mp (hπ.mem_iff.mp hx)

theorem shown_eq {i : Nat} (hi : i < table.length * 2) {t t' : Thunk}
    (ht : answer π t = (π[i]?).elim .EOF fun x => .VALUE x t') :
    shown conversation table excludedConversation π t = (π[i]?).bind (pick conversation table excludedConversation) := by
  have hlen : π.length = table.length * 2 := by simpa using hπ.length_eq
  have hx := List.getElem?_eq_getElem (show i < π.length by omega)
  have hlt : π[i] < table.length * 2 := perm_lt hπ (List.getElem_mem _)
  rw [hx] at ht ⊢
  rw [shown, ht, Option.elim_some, visit_eq hlt]
  cases hp : pick conversation table excludedConversation π[i] <;> simp [Iterator.value, hp]

omit hπ in
theorem shown_end {t : Thunk} (ht : answer π t = .EOF) : shown conversation table excludedConversation π t = none := by
  rw [shown, ht]
  rfl

/-- Forwards the walk meets the neighbours in the order of the permutation. -/
theorem forwards_shown :
    (forwards (table.length * 2)).filterMap (shown conversation table excludedConversation π) =
      π.filterMap (pick conversation table excludedConversation) := by
  have hlen : π.length = table.length * 2 := by simpa using hπ.length_eq
  have hend : answer π (.forward (table.length * 2)) = .EOF := by
    rw [answer, ← hlen, List.getElem?_eq_none (Nat.le_refl _)]
    rfl
  rw [forwards, List.range_succ, List.map_append, List.filterMap_append, ← filterMap_range π, hlen, List.filterMap_map]
  rw [show List.map Thunk.forward [table.length * 2] = [.forward (table.length * 2)] from rfl,
    List.filterMap_cons_none (shown_end hend), List.filterMap_nil, List.append_nil]
  apply List.filterMap_congr
  intro i hi
  exact shown_eq hπ (List.mem_range.mp hi) rfl

/-- Backwards it meets them in the reverse order. -/
theorem backwards_shown :
    (backwards (table.length * 2)).filterMap (shown conversation table excludedConversation π) =
      (π.filterMap (pick conversation table excludedConversation)).reverse := by
  have hlen : π.length = table.length * 2 := by simpa using hπ.length_eq
  rw [backwards, List.map_reverse, List.filterMap_reverse, List.range_succ_eq_map, List.map_cons,
    List.filterMap_cons_none (shown_end rfl), List.map_map, List.filterMap_map, ← filterMap_range π, hlen]
  congr 1
  apply List.filterMap_congr
  intro i hi
  exact shown_eq hπ (List.mem_range.mp hi) rfl

end visits

/-- Whatever is demanded in whatever order: one permutation answers, and a walk over the
    neighbours meets each of them once, but for the locations of the excluded conversation. -/
theorem walk_visits {ν χ : Type} [DecidableEq χ] (hash : Nat → Nat → Nat) (seed n : Nat)
    (seen : List (Thunk × Iterator Nat)) (p : State) (R : Reach hash seed n seen p) :
    ∃ π : List Nat, π.Perm (List.range n) ∧ (∀ x ∈ seen, x.2 = answer π x.1) ∧
      (∀ t' x t, (t', .VALUE x t) ∈ seen → ∃ y, force hash seed n p t = .ok y) ∧
      ∀ (conversation : ν → χ) (table : List (Location ν)) (excludedConversation : Option χ), n = table.length * 2 →
        ((forwards n).filterMap (shown conversation table excludedConversation π)).Perm
          (otherNeighbours conversation table excludedConversation) ∧
        (backwards n).filterMap (shown conversation table excludedConversation π) =
          ((forwards n).filterMap (shown conversation table excludedConversation π)).reverse ∧
        ∀ x ∈ seen, ∃ a, mapPartial (toTotalNeighbour conversation table excludedConversation) x.2 = .ok a := by
  obtain ⟨hπ, ha, hp⟩ := R.permutation
  refine ⟨arrangement n p, hπ, ha, hp, ?_⟩
  intro conversation table ex same
  subst same
  rw [forwards_shown hπ, backwards_shown hπ]
  refine ⟨?_, rfl, ?_⟩
  · rw [← pick_range]
    exact hπ.filterMap _
  · intro x hx
    have hx := ha x hx
    cases hv : x.2 with
    | EOF => exact ⟨_, rfl⟩
    | SKIP t => exact ⟨_, rfl⟩
    | VALUE y t =>
      have hy : y ∈ arrangement (table.length * 2) p := by
        rw [hv] at hx
        exact answer_mem hx.symm
      exact ⟨_, visit_eq (perm_lt hπ hy) t⟩

/-- Four demands, and a walk past the location of the conversation 1. -/
theorem walk_visits_four : ∃ seen p, Reach (fun a b => a + b) 7 4 seen p ∧ seen.length = 4 ∧
    ∃ π : List Nat, π.Perm (List.range 4) ∧ (∀ x ∈ seen, x.2 = answer π x.1) ∧
      ((forwards 4).filterMap (shown id [⟨some 1, some 2⟩, ⟨some 3, some 4⟩] (some 1) π)).Perm [3, 4] := by
  have R₁ : Reach (fun a b => a + b) 7 4 _ _ := .start rfl
  have R₂ := R₁.demand (.head _) rfl
  have R₃ := R₂.demand (.tail _ (.head _)) rfl
  obtain ⟨π, hπ, ha, -, walk⟩ := walk_visits (ν := Nat) (χ := Nat) (fun a b => a + b) 7 4 _ _ R₃
  obtain ⟨shows, -⟩ := walk id [⟨some 1, some 2⟩, ⟨some 3, some 4⟩] (some 1) rfl
  exact ⟨_, _, R₃, rfl, π, hπ, ha, shows⟩
/-- The other link of the location that holds the excluded conversation is skipped too. -/
theorem sibling_skipped :
    ¬ ∀ (table : List (Location Nat)) (excludedConversation : Nat) (n : Nat),
      (∃ l ∈ table, l.master = some n ∨ l.slave = some n) → n ≠ excludedConversation →
        ∃ i < table.length * 2, toTotalNeighbour id table (some excludedConversation) i = .ok (some n) := by
  intro h
  obtain ⟨i, hi, hn⟩ := h [{ master := some 1, slave := some 2 }] 1 2 ⟨_, .head _, .inr rfl⟩ (by decide)
  have hi' : i = 0 ∨ i = 1 := by simp at hi; omega
  rcases hi' with rfl | rfl
  · exact absurd hn (by decide)
  · exact absurd hn (by decide)

end BubbleStorm.Topology.Permute
