/-
  BubbleStorm.System.EventProofs — what the callbacks can rely on.

  The heap keeps the events that are scheduled, none of them before the clock (`Good`);
  what is scheduled is what was seen (`pending`). From one step to the next this is
  `Good.step`, and over every run it gives `reach_timely`: callbacks run in the order of
  time, each for the time it was last scheduled for, and `runTill` runs all that are due.
-/

import BubbleStorm.System.Event

namespace BubbleStorm.System

open Function (update_of_ne update_self)
open Util.Heap Util.Heap.ManagedHeap

variable {ρ β : Type} [DecidableEq ρ]

/-! ## What is scheduled -/

def Label.after (p : ρ → Option Int) : Label ρ → ρ → Option Int
  | .scheduled e t => Function.update p e (some t)
  | .cancelled e => Function.update p e none
  | .ran _ e _ => Function.update p e none
  | _ => p

/-- The time each event is scheduled for, from what was seen. -/
def pending (seen : List (Label ρ)) : ρ → Option Int := seen.foldl Label.after fun _ => none

@[simp] theorem pending_snoc (seen : List (Label ρ)) (l : Label ρ) : pending (seen ++ [l]) = l.after (pending seen) := by
  simp [pending]

theorem Label.after_untouched {l : Label ρ} {e : ρ} (h : ¬ l.Touches e) (p : ρ → Option Int) : l.after p e = p e := by
  cases l with
  | scheduled e' t => exact update_of_ne (fun he => h he.symm) _ _
  | cancelled e' => exact update_of_ne (fun he => h he.symm) _ _
  | ran c e' t => exact update_of_ne (fun he => h he.symm) _ _
  | _ => rfl

theorem Label.after_touched {l : Label ρ} {e : ρ} {t : Int} (h : l.Touches e) (p : ρ → Option Int) :
    l.after p e = some t ↔ l = .scheduled e t := by
  cases l with
  | scheduled e' t' =>
    cases (show e' = e from h)
    simp [Label.after]
  | cancelled e' =>
    cases (show e' = e from h)
    simp [Label.after]
  | ran c e' t' =>
    cases (show e' = e from h)
    simp [Label.after]
  | _ => exact absurd h (fun h => h)

/-- An event is scheduled for `t` when that was the last that happened to it. -/
theorem pending_iff (seen : List (Label ρ)) (e : ρ) (t : Int) :
    pending seen e = some t ↔ ∃ a b, seen = a ++ .scheduled e t :: b ∧ ∀ l ∈ b, ¬ l.Touches e := by
  induction seen using List.reverseRecOn with
  | nil => simp [pending]
  | append_singleton seen l ih =>
    rw [pending_snoc]
    by_cases hl : l.Touches e
    · rw [Label.after_touched hl]
      constructor
      · rintro rfl
        exact ⟨seen, [], rfl, by simp⟩
      · rintro ⟨a, b, heq, hb⟩
        cases b using List.reverseRecOn with
        | nil => exact (List.append_inj' heq rfl).2 |> List.singleton_inj.mp
        | append_singleton b l' _ =>
          rw [← List.cons_append, ← List.append_assoc] at heq
          have := List.singleton_inj.mp (List.append_inj' heq rfl).2
          exact absurd hl (hb l (by rw [this]; simp))
    · rw [Label.after_untouched hl, ih]
      constructor
      · rintro ⟨a, b, rfl, hb⟩
        refine ⟨a, b ++ [l], by simp, ?_⟩
        intro l' hl'
        rcases List.mem_append.mp hl' with hl' | hl'
        · exact hb l' hl'
        · rw [List.mem_singleton.mp hl']
          exact hl
      · rintro ⟨a, b, heq, hb⟩
        cases b using List.reverseRecOn with
        | nil =>
          have := List.singleton_inj.mp (List.append_inj' heq rfl).2
          exact absurd (by rw [this]; rfl) hl
        | append_singleton b l' _ =>
          rw [← List.cons_append, ← List.append_assoc] at heq
          obtain ⟨hs, -⟩ := List.append_inj' heq rfl
          exact ⟨a, b, hs, fun l' hl' => hb l' (by simp [hl'])⟩

/-! ## The invariant -/

/-- The heap keeps exactly the pending events, none of them before the clock. -/
structure Good (s : Event ρ β) (p : ρ → Option Int) : Prop where
  heap : ∃ q e, ManagedHeap.Inv Time.lt s.heap q e ∧ ∀ r, p r = if r ∈ q.members then some (q.key r) else none
  future : ∀ r t, p r = some t → s.now ≤ t

theorem weak : BinHeap.Weak Time.lt (fun _ => True) := BinHeap.weak_lt id fun _ _ => rfl

theorem good_new (callback : ρ → β) : Good (Event.new callback) (fun _ => none) where
  heap := ⟨{ members := ∅, key := fun _ => Time.zero, value := callback }, [],
    ⟨kept_new _ _, BinHeap.ordered_nil, rfl⟩, by simp⟩
  future := by simp

theorem raise_ok {α : Type} {x : Except Exn α} {a : α} (h : x = .ok a) : Event.raise x = .ok a := by
  rw [h]
  rfl

/-- One call of the heap. -/
theorem exec_heap {h : ManagedHeap ρ Int β} {q : Queue ρ Int β} {l : List (ρ × Int)} (I : ManagedHeap.Inv Time.lt h q l)
    (op : Op ρ Int β) (hc : op ≠ .clear) :
    ∃ out h' q' l', exec Time.lt h op = .ok (out, h') ∧ q.Step Time.lt op out q' ∧ ManagedHeap.Inv Time.lt h' q' l' :=
  I.exec weak op fun e => absurd e hc

section good

variable {s : Event ρ β} {p : ρ → Option Int}

theorem Good.scheduleAt (G : Good s p) {e : ρ} {t : Int} (ht : s.now ≤ t) :
    ∃ s', s.scheduleAt e t = .ok s' ∧ Good s' (Function.update p e (some t)) ∧ s'.now = s.now := by
  obtain ⟨q, l, I, hp⟩ := G.heap
  obtain ⟨out, h', q', l', hx, hs, I'⟩ := exec_heap I (.update e t) (by simp)
  obtain ⟨h₁, hu, hr⟩ := Lib.bind_eq_ok.mp hx
  cases hr
  cases hs
  refine ⟨{ s with heap := h' }, ?_, ⟨⟨_, _, I', ?_⟩, ?_⟩, rfl⟩
  · have hlt : ¬ Time.lt t s.now = true := by
      rw [Time.lt, decide_eq_true_eq]
      omega
    rw [Event.scheduleAt, if_neg hlt, raise_ok hu]
    rfl
  · intro r
    by_cases hr : r = e
    · subst hr
      simp
    · simp [hr, hp r]
  · intro r t' hr
    by_cases hre : r = e
    · subst hre
      rw [update_self] at hr
      cases hr
      exact ht
    · rw [update_of_ne hre] at hr
      exact G.future r t' hr

theorem Event.scheduleAt_past {e : ρ} {t : Int} (ht : t < s.now) : s.scheduleAt e t = .error .pastEventScheduled := by
  rw [Event.scheduleAt, if_pos (by simpa [Time.lt] using ht)]

theorem Good.cancel (G : Good s p) (e : ρ) :
    ∃ s', s.cancel e = .ok s' ∧ Good s' (Function.update p e none) ∧ s'.now = s.now := by
  obtain ⟨q, l, I, hp⟩ := G.heap
  obtain ⟨out, h', q', l', hx, hs, I'⟩ := exec_heap I (.remove e) (by simp)
  obtain ⟨h₁, hu, hr⟩ := Lib.bind_eq_ok.mp hx
  cases hr
  cases hs
  refine ⟨{ s with heap := h' }, ?_, ⟨⟨_, _, I', ?_⟩, ?_⟩, rfl⟩
  · rw [Event.cancel, raise_ok hu]
    rfl
  · intro r
    by_cases hr : r = e
    · subst hr
      simp
    · simp [hr, hp r]
  · intro r t' hr
    by_cases hre : r = e
    · subst hre
      rw [update_self] at hr
      cases hr
    · rw [update_of_ne hre] at hr
      exact G.future r t' hr

/-- The clock goes on to the time of the first event. -/
theorem Good.start (G : Good s p) {q : Queue ρ Int β} (hp : ∀ r, p r = if r ∈ q.members then some (q.key r) else none)
    {e : ρ} {h' : ManagedHeap ρ Int β} {l' : List (ρ × Int)} (he : e ∈ q.members)
    (first : ∀ x ∈ q.members, Time.lt (q.key x) (q.key e) = false)
    (I' : ManagedHeap.Inv Time.lt h' { q with members := q.members.erase e } l') :
    p e = some (({ s with heap := h' } : Event ρ β).start e).now ∧ s.now ≤ (({ s with heap := h' } : Event ρ β).start e).now ∧
      Good (({ s with heap := h' } : Event ρ β).start e) (Function.update p e none) := by
  have hnow : (({ s with heap := h' } : Event ρ β).start e).now = q.key e := I'.kept.key e
  have hpe : p e = some (q.key e) := by rw [hp e, if_pos he]
  rw [hnow]
  refine ⟨hpe, G.future e _ hpe, ⟨⟨_, _, I', ?_⟩, ?_⟩⟩
  · intro r
    by_cases hr : r = e
    · subst hr
      simp
    · simp [hr, hp r]
  · intro r t hr
    by_cases hre : r = e
    · subst hre
      rw [update_self] at hr
      cases hr
    · rw [update_of_ne hre, hp r] at hr
      rw [hnow]
      split at hr
      · rename_i hm
        cases hr
        have := first r hm
        rw [Time.lt, decide_eq_false_iff_not] at this
        omega
      · cases hr

/-- A round of `runTill` calls back an event that is due, or leaves none. -/
theorem Good.runTill (G : Good s p) (stop : Int) :
    (∃ e s', s.runTill stop = .ok (some e, s') ∧ p e = some s'.now ∧ s'.now ≤ stop ∧ s.now ≤ s'.now ∧
      Good s' (Function.update p e none)) ∨
    ∃ s', s.runTill stop = .ok (none, s') ∧ s.now ≤ s'.now ∧ Good s' p ∧ ∀ r t, p r = some t → stop < t := by
  obtain ⟨q, l, I, hp⟩ := G.heap
  obtain ⟨out, h', q', l', hx, hs, I'⟩ := exec_heap I (.popBounded stop) (by simp)
  have hx' : popBounded Time.lt s.heap stop = .ok (out, h') := hx
  cases hs with
  | popBounded _ e he first due =>
    left
    obtain ⟨h1, h2, h3⟩ := G.start hp he first I'
    have hnow : (({ s with heap := h' } : Event ρ β).start e).now = q.key e := I'.kept.key e
    refine ⟨e, _, ?_, h1, ?_, h2, h3⟩
    · simp only [Event.runTill, raise_ok hx']
      rfl
    · rw [hnow]
      rw [Time.lt, decide_eq_false_iff_not] at due
      omega
  | popBoundedNone _ late =>
    right
    have hlate : ∀ r t, p r = some t → stop < t := by
      intro r t hr
      rw [hp r] at hr
      split at hr
      · rename_i hm
        cases hr
        simpa [Time.lt] using late r hm
      · cases hr
    refine ⟨{ heap := h', now := Time.max stop s.now }, ?_, ?_, ⟨⟨q, l', I', hp⟩, ?_⟩, hlate⟩
    · simp only [Event.runTill, raise_ok hx']
      rfl
    · simp only [Time.max, Time.lt, decide_eq_true_eq]
      split <;> omega
    · intro r t hr
      have h1 := G.future r t hr
      have h2 := hlate r t hr
      simp only [Time.max, Time.lt, decide_eq_true_eq]
      split <;> omega

theorem Good.runNext (G : Good s p) :
    (∃ e s', s.runNext = .ok (some e, s') ∧ p e = some s'.now ∧ s.now ≤ s'.now ∧ Good s' (Function.update p e none)) ∨
    ∃ s', s.runNext = .ok (none, s') ∧ s'.now = s.now ∧ Good s' p := by
  obtain ⟨q, l, I, hp⟩ := G.heap
  obtain ⟨out, h', q', l', hx, hs, I'⟩ := exec_heap I (.pop) (by simp)
  have hx' : pop Time.lt s.heap = .ok (out, h') := hx
  cases hs with
  | pop e he first =>
    left
    obtain ⟨h1, h2, h3⟩ := G.start hp he first I'
    refine ⟨e, _, ?_, h1, h2, h3⟩
    simp only [Event.runNext, raise_ok hx']
    rfl
  | popNone _ =>
    right
    refine ⟨{ s with heap := h' }, ?_, rfl, ⟨⟨q, l', I', hp⟩, G.future⟩⟩
    simp only [Event.runNext, raise_ok hx']
    rfl

end good

/-! ## One step -/

/-- Only what the clock forbids is refused, and no call meets an exception of the heap. -/
def Answers (s : Event ρ β) : Prop :=
  (∀ e t, (t < s.now → s.scheduleAt e t = .error .pastEventScheduled) ∧ (s.now ≤ t → ∃ s', s.scheduleAt e t = .ok s')) ∧
  (∀ e, ∃ s', s.cancel e = .ok s') ∧ (∀ stop, ∃ x, s.runTill stop = .ok x) ∧ ∃ x, s.runNext = .ok x

theorem Good.answers {s : Event ρ β} {p : ρ → Option Int} (G : Good s p) : Answers s := by
  refine ⟨fun e t => ⟨Event.scheduleAt_past, fun ht => ?_⟩, fun e => ?_, fun stop => ?_, ?_⟩
  · obtain ⟨s', h, -⟩ := G.scheduleAt (e := e) ht
    exact ⟨s', h⟩
  · obtain ⟨s', h, -⟩ := G.cancel e
    exact ⟨s', h⟩
  · rcases G.runTill stop with ⟨e, s', h, -⟩ | ⟨s', h, -⟩
    · exact ⟨_, h⟩
    · exact ⟨_, h⟩
  · rcases G.runNext with ⟨e, s', h, -⟩ | ⟨s', h, -⟩
    · exact ⟨_, h⟩
    · exact ⟨_, h⟩

theorem scheduleAt_now {s s' : Event ρ β} {e : ρ} {t : Int} (h : s.scheduleAt e t = .ok s') : s.now ≤ t := by
  by_contra hlt
  rw [Event.scheduleAt_past (by omega)] at h
  cases h

theorem scheduleIn_ok {s s' : Event ρ β} {e : ρ} {t : Int} (h : s.scheduleIn e t = .ok s') :
    s.scheduleAt e (t + s.now) = .ok s' := by
  obtain ⟨u, hu, h⟩ := Lib.bind_eq_ok.mp h
  unfold Time.add at hu
  split at hu
  · cases hu
    exact h
  · cases hu

/-- What a run of a callback, and the end of `runTill`, say about what is pending. -/
structure Justified (p : ρ → Option Int) (l : Label ρ) : Prop where
  live : ∀ c e t, l = .ran c e t → p e = some t
  due : ∀ stop e t, l = .ran (.runTill stop) e t → t ≤ stop
  complete : ∀ stop, l = .finished stop → ∀ e t, p e = some t → stop < t

/-- The step lemma: what is pending, and the clock. -/
theorem Good.step {m m' : Machine ρ β} {l : Label ρ} {p : ρ → Option Int} (G : Good m.event p) (hs : Step m l m') :
    Good m'.event (l.after p) ∧ m.event.now ≤ m'.event.now ∧ Justified p l ∧ ∀ t, l.ranAt = some t → m'.event.now = t := by
  cases hs with
  | scheduleAt e t hc h =>
    obtain ⟨s', h', G', hn⟩ := G.scheduleAt (e := e) (scheduleAt_now h)
    rw [h] at h'
    cases h'
    exact ⟨G', by rw [hn], ⟨by simp, by simp, by simp⟩, by simp [Label.ranAt]⟩
  | scheduleIn e t hc h =>
    have h := scheduleIn_ok h
    obtain ⟨s', h', G', hn⟩ := G.scheduleAt (e := e) (scheduleAt_now h)
    rw [h] at h'
    cases h'
    exact ⟨G', by rw [hn], ⟨by simp, by simp, by simp⟩, by simp [Label.ranAt]⟩
  | cancel e hc h =>
    obtain ⟨s', h', G', hn⟩ := G.cancel e
    rw [h] at h'
    cases h'
    exact ⟨G', by rw [hn], ⟨by simp, by simp, by simp⟩, by simp [Label.ranAt]⟩
  | round hc h =>
    rcases G.runTill _ with ⟨e', s', h', hp, hd, hn, G'⟩ | ⟨s', h', -⟩
    · rw [h] at h'
      cases h'
      refine ⟨G', hn, ⟨?_, ?_, by simp⟩, ?_⟩
      · intro c e t he
        cases he
        exact hp
      · intro stop e t he
        cases he
        exact hd
      · intro t ht
        cases ht
        rfl
    · rw [h] at h'
      cases h'
  | finish hc h =>
    rcases G.runTill _ with ⟨e', s', h', -⟩ | ⟨s', h', hn, G', hl⟩
    · rw [h] at h'
      cases h'
    · rw [h] at h'
      cases h'
      refine ⟨G', hn, ⟨by simp, by simp, ?_⟩, by simp [Label.ranAt]⟩
      intro stop he
      cases he
      exact hl
  | runNext hc h =>
    rcases G.runNext with ⟨e', s', h', hp, hn, G'⟩ | ⟨s', h', -⟩
    · rw [h] at h'
      cases h'
      refine ⟨G', hn, ⟨?_, by simp, by simp⟩, ?_⟩
      · intro c e t he
        cases he
        exact hp
      · intro t ht
        cases ht
        rfl
    · rw [h] at h'
      cases h'
  | idle hc h =>
    rcases G.runNext with ⟨e', s', h', -⟩ | ⟨s', h', hn, G'⟩
    · rw [h] at h'
      cases h'
    · rw [h] at h'
      cases h'
      exact ⟨G', by rw [hn], ⟨by simp, by simp, by simp⟩, by simp [Label.ranAt]⟩
  | refusedAt e t hc h => exact ⟨G, le_refl _, ⟨by simp, by simp, by simp⟩, by simp [Label.ranAt]⟩
  | refusedIn e t hc h => exact ⟨G, le_refl _, ⟨by simp, by simp, by simp⟩, by simp [Label.ranAt]⟩
  | runTill stop hc => exact ⟨G, le_refl _, ⟨by simp, by simp, by simp⟩, by simp [Label.ranAt]⟩
  | returnTill hc => exact ⟨G, le_refl _, ⟨by simp, by simp, by simp⟩, by simp [Label.ranAt]⟩
  | returnNext hc => exact ⟨G, le_refl _, ⟨by simp, by simp, by simp⟩, by simp [Label.ranAt]⟩
  | escape hc => exact ⟨G, le_refl _, ⟨by simp, by simp, by simp⟩, by simp [Label.ranAt]⟩

/-! ## Every run -/

/-- The callbacks that ran, as they were seen. -/
structure Timely (seen : List (Label ρ)) : Prop where
  /-- in the order of time -/
  order : (seen.filterMap Label.ranAt).Pairwise (· ≤ ·)
  /-- each for a scheduling that was neither run before nor cancelled nor replaced since -/
  live : ∀ pre c e t post, seen = pre ++ .ran c e t :: post →
    ∃ a b, pre = a ++ .scheduled e t :: b ∧ ∀ l ∈ b, ¬ l.Touches e
  /-- by `runTill` only when due -/
  due : ∀ stop e t, .ran (.runTill stop) e t ∈ seen → t ≤ stop
  /-- which leaves nothing that is due -/
  complete : ∀ pre stop post, seen = pre ++ .finished stop :: post →
    ∀ a e t b, pre = a ++ .scheduled e t :: b → t ≤ stop → ∃ l ∈ b, l.Touches e

theorem Timely.snoc {seen : List (Label ρ)} {l : Label ρ} (T : Timely seen) (J : Justified (pending seen) l)
    (hl : ∀ t, l.ranAt = some t → ∀ t' ∈ seen.filterMap Label.ranAt, t' ≤ t) : Timely (seen ++ [l]) := by
  constructor
  · rw [List.filterMap_append, List.pairwise_append]
    refine ⟨T.order, ?_, ?_⟩
    · cases h : l.ranAt with
      | none => simp [h]
      | some t => simp [h]
    · intro t' ht' t ht
      obtain ⟨l', hl', ht⟩ := List.mem_filterMap.mp ht
      rw [List.mem_singleton.mp hl'] at ht
      exact hl t ht t' ht'
  · intro pre c e t post heq
    cases post using List.reverseRecOn with
    | nil =>
      obtain ⟨rfl, hl⟩ := List.append_inj' heq rfl
      exact (pending_iff _ e t).mp (J.live c e t (List.singleton_inj.mp hl))
    | append_singleton post l' _ =>
      rw [← List.cons_append, ← List.append_assoc] at heq
      exact T.live pre c e t post (List.append_inj' heq rfl).1
  · intro stop e t hm
    rcases List.mem_append.mp hm with hm | hm
    · exact T.due stop e t hm
    · exact J.due stop e t (List.mem_singleton.mp hm).symm
  · intro pre stop post heq a e t b hpre ht
    cases post using List.reverseRecOn with
    | nil =>
      obtain ⟨rfl, hl⟩ := List.append_inj' heq rfl
      by_contra hno
      have := J.complete stop (List.singleton_inj.mp hl) e t
        ((pending_iff _ e t).mpr ⟨a, b, hpre, fun l hl ht => hno ⟨l, hl, ht⟩⟩)
      omega
    | append_singleton post l' _ =>
      rw [← List.cons_append, ← List.append_assoc] at heq
      exact T.complete pre stop post (List.append_inj' heq rfl).1 a e t b hpre ht

/-- The run lemma. -/
theorem Reach.good {callback : ρ → β} {seen : List (Label ρ)} {m : Machine ρ β} (R : Reach callback seen m) :
    Good m.event (pending seen) ∧ Timely seen ∧ ∀ t ∈ seen.filterMap Label.ranAt, t ≤ m.event.now := by
  induction R with
  | start =>
    refine ⟨good_new callback, ⟨by simp, ?_, by simp, ?_⟩, by simp⟩
    · intro pre c e t post h
      simp at h
    · intro pre stop post h
      simp at h
  | @step seen m m' l h hs ih =>
    obtain ⟨G, T, hle⟩ := ih
    obtain ⟨G', hn, J, hran⟩ := G.step hs
    refine ⟨by rw [pending_snoc]; exact G', T.snoc J ?_, ?_⟩
    · intro t ht t' ht'
      rw [← hran t ht]
      exact (hle t' ht').trans hn
    · intro t ht
      rw [List.filterMap_append, List.mem_append] at ht
      rcases ht with ht | ht
      · exact (hle t ht).trans hn
      · obtain ⟨l', hl', ht⟩ := List.mem_filterMap.mp ht
        rw [List.mem_singleton.mp hl'] at ht
        exact le_of_eq (hran t ht).symm

/-- Whatever the callbacks do: they run in time, the clock never goes back, and the calls
    are answered. -/
theorem reach_timely (callback : ρ → β) (seen : List (Label ρ)) (m : Machine ρ β) (R : Reach callback seen m) :
    Timely seen ∧ Answers m.event ∧ (∀ l m', Step m l m' → m.event.now ≤ m'.event.now) ∧
      ∀ r t, m.event.timeOfExecution r = some t ↔ ∃ a b, seen = a ++ .scheduled r t :: b ∧ ∀ l ∈ b, ¬ l.Touches r := by
  obtain ⟨G, T, -⟩ := R.good
  refine ⟨T, G.answers, fun l m' hs => (G.step hs).2.1, ?_⟩
  intro r t
  rw [← pending_iff]
  obtain ⟨q, l, I, hp⟩ := G.heap
  obtain ⟨_, A⟩ := I.refines
  rw [hp r, Event.timeOfExecution, A.sub r]
  by_cases hr : r ∈ q.members
  · simp [hr]
  · simp [hr]

/-- Of two events one is cancelled and the other schedules itself anew when it runs. -/
theorem reach_timely_two : ∃ seen m, Reach (fun _ : Bool => ()) seen m ∧
    seen = [.scheduled true 5, .scheduled false 3, .cancelled true, .till 7, .ran (.runTill 7) false 3, .scheduled false 6] ∧
    Timely seen ∧ Answers m.event ∧ m.event.timeOfExecution false = some 6 := by
  have R₀ : Reach (fun _ : Bool => ()) [] _ := Reach.start
  obtain ⟨s₁, h₁, G₁, n₁⟩ := (good_new (fun _ : Bool => ())).scheduleAt (e := true) (t := 5) (by decide)
  have R₁ := R₀.step (.scheduleAt true 5 rfl h₁)
  obtain ⟨s₂, h₂, G₂, n₂⟩ := G₁.scheduleAt (e := false) (t := 3) (by rw [n₁]; decide)
  have R₂ := R₁.step (.scheduleAt false 3 rfl h₂)
  obtain ⟨s₃, h₃, G₃, n₃⟩ := G₂.cancel true
  have R₃ := R₂.step (.cancel true rfl h₃)
  have R₄ := R₃.step (.runTill 7 rfl)
  rcases G₃.runTill 7 with ⟨e, s₄, h₄, hp, -, -, G₄⟩ | ⟨s₄, -, -, -, hl⟩
  · obtain ⟨rfl, now⟩ : e = false ∧ s₄.now = 3 := by
      cases e with
      | false => exact ⟨rfl, (Option.some.inj hp).symm⟩
      | true => exact absurd hp nofun
    have R₅ := R₄.step (.round rfl h₄)
    obtain ⟨s₅, h₅, -⟩ := G₄.scheduleAt (e := false) (t := 6) (by rw [now]; decide)
    have R₆ := R₅.step (.scheduleAt false 6 rfl h₅)
    rw [now] at R₆
    obtain ⟨timely, answers, -, last⟩ := reach_timely _ _ _ R₆
    exact ⟨_, _, R₆, rfl, timely, answers, (last false 6).mpr ⟨_, [], rfl, nofun⟩⟩
  · exact absurd (hl false 3 rfl) (by decide)

end BubbleStorm.System
