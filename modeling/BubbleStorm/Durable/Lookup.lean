/-
  BubbleStorm.Durable.Lookup — a lookup of a durable item
  (`src/bubblestorm/durable/requests/lookup.sml` and `Result` of
  `src/bubblestorm/notification/notification.fun`).

  Any number of peers answer with a version. The first answer, and every one that is newer
  than the newest that was asked for so far, is asked for its data: the stream is read to
  its end, and then the user's `receive` is called. The others are cancelled. A peer that
  holds a tombstone sends no bytes.

  What counts as newest is set when the data is asked for, not when it has arrived. So the
  versions the user sees increase exactly when the streams that are read end in the order
  of their answers (`received_iff`). What the user sees of a version is what the peer sent.

  A stream hands over what was written on it, in order, in pieces of any size, and ends
  after the last byte; or it is reset.
-/

import BubbleStorm.Durable.HashStore

namespace BubbleStorm.Durable.Lookup

abbrev Bytes := List UInt8

/-! ## The lookup -/

inductive Stage where
  | reading
  /-- The end of the stream was read. -/
  | done
  | reset
  | cancelled
  deriving DecidableEq, Repr

/-- An answer: the version, what the peer sends for it, and what was read of that. -/
structure Result where
  id : Version
  sent : Bytes
  data : List Bytes
  left : Bytes
  stage : Stage
  deriving DecidableEq, Repr

/-- `received`: the calls of the user's `receive`, each with the number of its answer. -/
structure St where
  currentVersion : Option Version
  results : List Result
  received : List (Nat × Version × Bytes)
  deriving DecidableEq, Repr

def start : St := ⟨none, [], []⟩

def readResult (s : St) (id : Version) (sent : Bytes) : St :=
  { s with currentVersion := some id, results := s.results ++ [⟨id, sent, [], sent, .reading⟩] }

def cancel (s : St) (id : Version) (sent : Bytes) : St :=
  { s with results := s.results ++ [⟨id, sent, [], sent, .cancelled⟩] }

def onResult (s : St) (id : Version) (sent : Bytes) : St :=
  match s.currentVersion with
  | none => readResult s id sent
  | some myVersion => if Version.less myVersion id then readResult s id sent else cancel s id sent

/-- What a read ends with. -/
inductive Read where
  | data (slice : Bytes)
  | shutdown
  | reset
  deriving DecidableEq, Repr

/-- Of the answer number `i`. -/
def readDone (s : St) (i : Nat) (r : Result) : Read → St
  | .data slice => { s with results := s.results.set i { r with data := slice :: r.data, left := r.left.drop slice.length } }
  | .shutdown =>
    { s with
      results := s.results.set i { r with stage := .done }
      received := s.received ++ [(i, r.id, r.data.reverse.flatten)] }
  | .reset => { s with results := s.results.set i { r with stage := .reset } }

/-! ## Runs -/

inductive Event where
  /-- A peer answers: with no bytes if it holds a tombstone. -/
  | result (id : Version) (sent : Bytes)
  /-- The next `n` bytes of an answer's stream. -/
  | data (i n : Nat)
  | shutdown (i : Nat)
  | reset (i : Nat)
  deriving DecidableEq, Repr

/-- What the stream of an answer hands over, if it is read. -/
def stream (r : Result) : Event → Option Read
  | .data _ n => if r.left = [] then none else some (.data (r.left.take n))
  | .shutdown _ => if r.left = [] then some .shutdown else none
  | .reset _ => some .reset
  | .result _ _ => none

def deliver (s : St) (i : Nat) (e : Event) : St :=
  match s.results[i]? with
  | none => s
  | some r =>
    if r.stage = .reading then
      match stream r e with
      | none => s
      | some read => readDone s i r read
    else s

def step (s : St) (e : Event) : St :=
  match e with
  | .result id sent => onResult s id sent
  | .data i _ => deliver s i e
  | .shutdown i => deliver s i e
  | .reset i => deliver s i e

def run (events : List Event) : St := events.foldl step start

/-- The versions the user sees, in order, and what each comes with. -/
structure Good (s : St) : Prop where
  increasing : (s.received.map fun c => c.2.1).Pairwise (· < ·)
  exact : ∀ c ∈ s.received, ∃ r, s.results[c.1]? = some r ∧ r.id = c.2.1 ∧ r.sent = c.2.2

/-- The stream of an answer ends here: it is being read and nothing is left of it. -/
def Ends (s : St) (e : Event) (i : Nat) : Prop :=
  e = .shutdown i ∧ ∃ r, s.results[i]? = some r ∧ r.stage = .reading ∧ r.left = []

def Done (s : St) (i : Nat) : Prop := ∃ r, s.results[i]? = some r ∧ r.stage = .done

/-- No stream of a later answer has ended before. -/
def Orderly (s : St) (e : Event) : Prop := ∀ i, Ends s e i → ∀ j, i < j → ¬ Done s j

/-! ## The answers that are read -/

/-- It was asked for its data. -/
def Result.read (r : Result) : Prop := r.stage ≠ .cancelled

structure Inv (s : St) : Prop where
  /-- Of two answers that are read the later one is newer. -/
  newer : ∀ (i j : Nat) (a b : Result), i < j → s.results[i]? = some a → s.results[j]? = some b → a.read → b.read → a.id < b.id
  /-- The current version is no older than any answer that is read. -/
  current : ∀ (i : Nat) (a : Result), s.results[i]? = some a → a.read → ∃ v, s.currentVersion = some v ∧ a.id ≤ v
  whole : ∀ (i : Nat) (a : Result), s.results[i]? = some a → a.data.reverse.flatten ++ a.left = a.sent
  /-- The calls are those for the answers whose streams have ended. -/
  calls : ∀ i, Done s i ↔ ∃ c ∈ s.received, c.1 = i
  exact : ∀ c ∈ s.received, ∃ r, s.results[c.1]? = some r ∧ r.id = c.2.1 ∧ r.sent = c.2.2

theorem inv_start : Inv start where
  newer := by
    intro i j a b _ here
    simp [start] at here
  current := by
    intro i a here
    simp [start] at here
  whole := by
    intro i a here
    simp [start] at here
  calls := by
    intro i
    simp [Done, start]
  exact := by
    intro c mem
    simp [start] at mem

/-- A new answer, read or cancelled. -/
theorem getElem?_snoc {l : List Result} {r : Result} {i : Nat} {a : Result} (here : (l ++ [r])[i]? = some a) :
    l[i]? = some a ∨ i = l.length ∧ a = r := by
  rw [List.getElem?_append] at here
  split at here
  · exact .inl here
  · rename_i h
    rcases List.getElem?_eq_some_iff.mp here with ⟨lt, eq⟩
    simp only [List.length_singleton] at lt
    have : i = l.length := by omega
    subst this
    simp only [Nat.sub_self, List.getElem_cons_zero] at eq
    exact .inr ⟨rfl, eq.symm⟩

theorem getElem?_old {l : List Result} {r : Result} {i : Nat} {a : Result} (here : l[i]? = some a) :
    (l ++ [r])[i]? = some a := by
  obtain ⟨lt, eq⟩ := List.getElem?_eq_some_iff.mp here
  rw [List.getElem?_append_left lt, List.getElem?_eq_getElem lt, eq]

theorem done_snoc {s : St} {r : Result} (fresh : r.stage ≠ .done) (v : Option Version) (i : Nat) :
    Done ⟨v, s.results ++ [r], s.received⟩ i ↔ Done s i := by
  constructor
  · intro ⟨a, here, done⟩
    rcases getElem?_snoc here with here | ⟨-, rfl⟩
    · exact ⟨a, here, done⟩
    · exact absurd done fresh
  · intro ⟨a, here, done⟩
    exact ⟨a, getElem?_old here, done⟩

theorem Inv.readResult {s : St} (inv : Inv s) {id : Version} (sent : Bytes)
    (newest : ∀ v, s.currentVersion = some v → v < id) : Inv (readResult s id sent) where
  newer := by
    intro i j a b lt first second aRead bRead
    rcases getElem?_snoc second with second | ⟨rfl, rfl⟩
    · rcases getElem?_snoc first with first | ⟨rfl, -⟩
      · exact inv.newer i j a b lt first second aRead bRead
      · have := (List.getElem?_eq_some_iff.mp second).1
        omega
    · rcases getElem?_snoc first with first | ⟨rfl, -⟩
      · obtain ⟨v, current, le⟩ := inv.current i a first aRead
        exact lt_of_le_of_lt le (newest v current)
      · omega
  current := by
    intro i a here aRead
    refine ⟨id, rfl, ?_⟩
    rcases getElem?_snoc here with here | ⟨-, rfl⟩
    · obtain ⟨v, current, le⟩ := inv.current i a here aRead
      exact (lt_of_le_of_lt le (newest v current)).le
    · exact le_refl _
  whole := by
    intro i a here
    rcases getElem?_snoc here with here | ⟨-, rfl⟩
    · exact inv.whole i a here
    · rfl
  calls := by
    intro i
    exact (done_snoc (by simp) _ i).trans (inv.calls i)
  exact := by
    intro c mem
    obtain ⟨r, here, rest⟩ := inv.exact c mem
    exact ⟨r, getElem?_old here, rest⟩

theorem Inv.cancel {s : St} (inv : Inv s) (id : Version) (sent : Bytes) : Inv (cancel s id sent) where
  newer := by
    intro i j a b lt first second aRead bRead
    rcases getElem?_snoc second with second | ⟨-, rfl⟩
    · rcases getElem?_snoc first with first | ⟨-, rfl⟩
      · exact inv.newer i j a b lt first second aRead bRead
      · exact absurd rfl aRead
    · exact absurd rfl bRead
  current := by
    intro i a here aRead
    rcases getElem?_snoc here with here | ⟨-, rfl⟩
    · exact inv.current i a here aRead
    · exact absurd rfl aRead
  whole := by
    intro i a here
    rcases getElem?_snoc here with here | ⟨-, rfl⟩
    · exact inv.whole i a here
    · rfl
  calls := by
    intro i
    exact (done_snoc (by simp) _ i).trans (inv.calls i)
  exact := by
    intro c mem
    obtain ⟨r, here, rest⟩ := inv.exact c mem
    exact ⟨r, getElem?_old here, rest⟩

theorem Inv.onResult {s : St} (inv : Inv s) (id : Version) (sent : Bytes) : Inv (onResult s id sent) := by
  unfold Lookup.onResult
  cases current : s.currentVersion with
  | none =>
    refine inv.readResult sent ?_
    intro v here
    rw [current] at here
    cases here
  | some myVersion =>
    show Inv (if Version.less myVersion id = true then _ else _)
    split
    · rename_i less
      refine inv.readResult sent ?_
      intro v here
      rw [current] at here
      cases here
      exact (Version.less_iff _ _).mp less
    · exact inv.cancel id sent

/-! ## A stream goes on -/

theorem getElem?_set_cases {l : List Result} {i j : Nat} {r a : Result} (here : (l.set i r)[j]? = some a) :
    i = j ∧ a = r ∨ i ≠ j ∧ l[j]? = some a := by
  rw [List.getElem?_set] at here
  split at here
  · rename_i same
    split at here
    · cases here
      exact .inl ⟨same, rfl⟩
    · cases here
  · rename_i other
    exact .inr ⟨other, here⟩

/-- What a read leaves of an answer. -/
structure Same (r r' : Result) : Prop where
  id : r'.id = r.id
  sent : r'.sent = r.sent
  read : r'.read → r.read
  whole : r'.data.reverse.flatten ++ r'.left = r.data.reverse.flatten ++ r.left

theorem Inv.set {s : St} (inv : Inv s) {i : Nat} {r r' : Result} (here : s.results[i]? = some r) (same : Same r r')
    {received : List (Nat × Version × Bytes)}
    (calls : ∀ j, Done ⟨s.currentVersion, s.results.set i r', received⟩ j ↔ ∃ c ∈ received, c.1 = j)
    (exact : ∀ c ∈ received, c ∈ s.received ∨ c.1 = i ∧ r.id = c.2.1 ∧ r.sent = c.2.2) :
    Inv ⟨s.currentVersion, s.results.set i r', received⟩ where
  newer := by
    intro j k a b lt first second aRead bRead
    rcases getElem?_set_cases first with ⟨rfl, rfl⟩ | ⟨-, before⟩
    · rcases getElem?_set_cases second with ⟨rfl, -⟩ | ⟨-, after⟩
      · omega
      · rw [same.id]
        exact inv.newer _ _ r b lt here after (same.read aRead) bRead
    · rcases getElem?_set_cases second with ⟨rfl, rfl⟩ | ⟨-, after⟩
      · rw [same.id]
        exact inv.newer _ _ a r lt before here aRead (same.read bRead)
      · exact inv.newer _ _ a b lt before after aRead bRead
  current := by
    intro j a first aRead
    rcases getElem?_set_cases first with ⟨rfl, rfl⟩ | ⟨-, before⟩
    · rw [same.id]
      exact inv.current _ r here (same.read aRead)
    · exact inv.current j a before aRead
  whole := by
    intro j a first
    rcases getElem?_set_cases first with ⟨rfl, rfl⟩ | ⟨-, first⟩
    · rw [same.whole, same.sent]
      exact inv.whole _ r here
    · exact inv.whole j a first
  calls := calls
  exact := by
    have lt := (List.getElem?_eq_some_iff.mp here).1
    intro c mem
    rcases exact c mem with old | ⟨rfl, id, sent⟩
    · obtain ⟨a, first, id, sent⟩ := inv.exact c old
      by_cases at_i : i = c.1
      · subst at_i
        rw [here] at first
        cases first
        exact ⟨r', List.getElem?_set_self lt, same.id.trans id, same.sent.trans sent⟩
      · exact ⟨a, by rw [List.getElem?_set_ne at_i]; exact first, id, sent⟩
    · exact ⟨r', List.getElem?_set_self lt, same.id.trans id, same.sent.trans sent⟩

theorem done_set {s : St} {i : Nat} {r r' : Result} (here : s.results[i]? = some r) (received : List (Nat × Version × Bytes))
    (j : Nat) : Done ⟨s.currentVersion, s.results.set i r', received⟩ j ↔ if i = j then r'.stage = .done else Done s j := by
  have lt := (List.getElem?_eq_some_iff.mp here).1
  unfold Done
  by_cases same : i = j
  · subst same
    rw [if_pos rfl]
    simp only [List.getElem?_set_self lt]
    constructor
    · intro ⟨a, first, done⟩
      cases first
      exact done
    · exact fun done => ⟨r', rfl, done⟩
  · rw [if_neg same]
    simp only [List.getElem?_set_ne same]

/-- A read that does not end the stream. -/
theorem Inv.unended {s : St} (inv : Inv s) {i : Nat} {r r' : Result} (here : s.results[i]? = some r)
    (reading : r.stage = .reading) (same : Same r r') (goes : r'.stage ≠ .done) :
    Inv ⟨s.currentVersion, s.results.set i r', s.received⟩ := by
  refine inv.set here same ?_ (fun c mem => .inl mem)
  intro j
  rw [done_set here, ← inv.calls j]
  split
  · rename_i at_i
    subst at_i
    refine ⟨fun done => absurd done goes, ?_⟩
    intro ⟨a, first, done⟩
    rw [here] at first
    cases first
    rw [reading] at done
    cases done
  · exact Iff.rfl

theorem Inv.shutdown {s : St} (inv : Inv s) {i : Nat} {r : Result} (here : s.results[i]? = some r)
    (reading : r.stage = .reading) (empty : r.left = []) : Inv (readDone s i r .shutdown) := by
  have same : Same r { r with stage := .done } := by
    refine ⟨rfl, rfl, ?_, rfl⟩
    intro _ cancelled
    rw [reading] at cancelled
    cases cancelled
  refine inv.set here same ?_ ?_
  · intro j
    rw [done_set here]
    split
    · rename_i at_i
      subst at_i
      exact ⟨fun _ => ⟨_, List.mem_append_right _ (List.mem_singleton_self _), rfl⟩, fun _ => rfl⟩
    · rename_i other
      rw [inv.calls j]
      constructor
      · rintro ⟨c, mem, rfl⟩
        exact ⟨c, List.mem_append_left _ mem, rfl⟩
      · rintro ⟨c, mem, rfl⟩
        rcases List.mem_append.mp mem with mem | mem
        · exact ⟨c, mem, rfl⟩
        · rw [List.mem_singleton.mp mem] at other
          exact absurd rfl other
  · intro c mem
    rcases List.mem_append.mp mem with mem | mem
    · exact .inl mem
    · rw [List.mem_singleton.mp mem]
      refine .inr ⟨rfl, rfl, ?_⟩
      have whole := inv.whole i r here
      rw [empty, List.append_nil] at whole
      exact whole.symm

/-- What an event of a stream does: nothing, or a read of an answer that is being read. -/
theorem deliver_cases (s : St) (i : Nat) (e : Event) :
    deliver s i e = s ∧ (¬ ∃ r, s.results[i]? = some r ∧ r.stage = .reading ∧ (stream r e).isSome) ∨
      ∃ r read, s.results[i]? = some r ∧ r.stage = .reading ∧ stream r e = some read ∧ deliver s i e = readDone s i r read := by
  unfold deliver
  cases here : s.results[i]? with
  | none =>
    refine .inl ⟨rfl, ?_⟩
    intro ⟨r, there, _⟩
    cases there
  | some r =>
    by_cases reading : r.stage = .reading
    · cases comes : stream r e with
      | none =>
        refine .inl ⟨by simp [reading, comes], ?_⟩
        intro ⟨r', same, _, told⟩
        cases same
        rw [comes] at told
        cases told
      | some read => exact .inr ⟨r, read, rfl, reading, comes, by simp [reading, comes]⟩
    · refine .inl ⟨by simp [reading], ?_⟩
      intro ⟨r', same, reads, _⟩
      cases same
      exact absurd reads reading

theorem Inv.readDone {s : St} (inv : Inv s) {i : Nat} {r : Result} (here : s.results[i]? = some r)
    (reading : r.stage = .reading) {e : Event} {read : Read} (comes : stream r e = some read) : Inv (readDone s i r read) := by
  have asked : r.read := by
    intro cancelled
    rw [reading] at cancelled
    cases cancelled
  cases e with
  | result id sent => cases comes
  | data k n =>
    simp only [stream] at comes
    split at comes
    · cases comes
    · cases comes
      refine inv.unended here reading ⟨rfl, rfl, fun _ => asked, ?_⟩ ?_
      · have rest : r.left.take n ++ r.left.drop (r.left.take n).length = r.left := by
          rw [List.length_take]
          rcases Nat.le_total n r.left.length with le | le
          · rw [Nat.min_eq_left le, List.take_append_drop]
          · rw [Nat.min_eq_right le, List.drop_length, List.take_of_length_le le, List.append_nil]
        rw [List.reverse_cons, List.flatten_append, List.append_assoc, List.flatten_singleton, rest]
      · rw [reading]
        simp
  | shutdown k =>
    simp only [stream] at comes
    split at comes
    · rename_i empty
      cases comes
      exact inv.shutdown here reading empty
    · cases comes
  | reset k =>
    cases comes
    exact inv.unended here reading ⟨rfl, rfl, fun _ => asked, rfl⟩ (by simp)

theorem Inv.deliver {s : St} (inv : Inv s) (i : Nat) (e : Event) : Inv (deliver s i e) := by
  rcases deliver_cases s i e with ⟨same, -⟩ | ⟨r, read, here, reading, comes, eq⟩
  · rw [same]
    exact inv
  · rw [eq]
    exact inv.readDone here reading comes

theorem Inv.step {s : St} (inv : Inv s) (e : Event) : Inv (step s e) := by
  cases e with
  | result id sent => exact inv.onResult id sent
  | data i n => exact inv.deliver i (.data i n)
  | shutdown i => exact inv.deliver i (.shutdown i)
  | reset i => exact inv.deliver i (.reset i)

/-! ## Runs -/

theorem run_snoc (events : List Event) (e : Event) : run (events ++ [e]) = step (run events) e := by
  simp [run]

theorem inv_run (events : List Event) : Inv (run events) := by
  induction events using List.reverseRecOn with
  | nil => exact inv_start
  | append_singleton events e ih =>
    rw [run_snoc]
    exact ih.step e

def versions (s : St) : List Version := s.received.map fun c => c.2.1

/-- Only the end of a stream calls the user. -/
theorem received_step (s : St) (e : Event) :
    (∃ i r, Ends s e i ∧ s.results[i]? = some r ∧ versions (step s e) = versions s ++ [r.id]) ∨
      (∀ i, ¬ Ends s e i) ∧ versions (step s e) = versions s := by
  cases e with
  | result id sent =>
    refine .inr ⟨by simp [Ends], ?_⟩
    show versions (onResult s id sent) = _
    unfold onResult
    split
    · rfl
    · split
      · rfl
      · rfl
  | data i n =>
    refine .inr ⟨by simp [Ends], ?_⟩
    rcases deliver_cases s i (.data i n) with ⟨same, -⟩ | ⟨r, read, -, -, comes, eq⟩
    · exact congrArg versions same
    · show versions (deliver s i _) = _
      rw [eq]
      simp only [stream] at comes
      split at comes
      · cases comes
      · cases comes
        rfl
  | shutdown i =>
    rcases deliver_cases s i (.shutdown i) with ⟨same, waits⟩ | ⟨r, read, here, reading, comes, eq⟩
    · refine .inr ⟨?_, congrArg versions same⟩
      intro j ⟨at_j, r, here, reading, empty⟩
      cases at_j
      exact waits ⟨r, here, reading, by simp [stream, empty]⟩
    · simp only [stream] at comes
      split at comes
      · rename_i empty
        cases comes
        refine .inl ⟨i, r, ⟨rfl, r, here, reading, empty⟩, here, ?_⟩
        show versions (deliver s i _) = _
        rw [eq]
        simp [versions, readDone]
      · cases comes
  | reset i =>
    refine .inr ⟨by simp [Ends], ?_⟩
    rcases deliver_cases s i (.reset i) with ⟨same, -⟩ | ⟨r, read, -, -, comes, eq⟩
    · exact congrArg versions same
    · show versions (deliver s i _) = _
      rw [eq]
      cases comes
      rfl

theorem Ends.unique {s : St} {e : Event} {i j : Nat} (first : Ends s e i) (second : Ends s e j) : i = j := by
  have := first.1.symm.trans second.1
  cases this
  rfl

/-- The version of an answer whose stream ends is above those the user has seen exactly when
they are of answers before it. -/
theorem Inv.above_iff {s : St} (inv : Inv s) {i : Nat} {r : Result} (here : s.results[i]? = some r)
    (reading : r.stage = .reading) : (∀ v ∈ versions s, v < r.id) ↔ ∀ j, i < j → ¬ Done s j := by
  have asked : r.read := by
    intro cancelled
    rw [reading] at cancelled
    cases cancelled
  constructor
  · intro above j lt ⟨a, first, done⟩
    have aRead : a.read := by
      intro cancelled
      rw [done] at cancelled
      cases cancelled
    obtain ⟨c, mem, rfl⟩ := (inv.calls j).mp ⟨a, first, done⟩
    obtain ⟨a', first', id, -⟩ := inv.exact c mem
    rw [first] at first'
    cases first'
    have below : c.2.1 < r.id := above _ (List.mem_map_of_mem mem)
    have newer := inv.newer i c.1 r a lt here first asked aRead
    rw [id] at newer
    exact absurd below newer.asymm
  · intro before v mem
    obtain ⟨c, call, rfl⟩ := List.mem_map.mp mem
    obtain ⟨a, first, done⟩ := (inv.calls c.1).mpr ⟨c, call, rfl⟩
    obtain ⟨a', first', id, -⟩ := inv.exact c call
    rw [first] at first'
    cases first'
    have aRead : a.read := by
      intro cancelled
      rw [done] at cancelled
      cases cancelled
    rcases Nat.lt_trichotomy c.1 i with lt | same | gt
    · rw [← id]
      exact inv.newer c.1 i a r lt first here aRead asked
    · rw [same, here] at first
      cases first
      rw [reading] at done
      cases done
    · exact absurd ⟨a, first, done⟩ (before c.1 gt)

/-- One more event keeps the versions increasing exactly when it is orderly. -/
theorem increasing_step {s : St} (inv : Inv s) (e : Event) :
    (versions (step s e)).Pairwise (· < ·) ↔ (versions s).Pairwise (· < ·) ∧ Orderly s e := by
  rcases received_step s e with ⟨i, r, ends, here, more⟩ | ⟨quiet, same⟩
  · obtain ⟨-, r', here', reading, -⟩ := id ends
    rw [here] at here'
    cases here'
    rw [more, List.pairwise_append]
    have above : (∀ v ∈ versions s, ∀ w ∈ [r.id], v < w) ↔ Orderly s e := by
      simp only [List.mem_singleton, forall_eq]
      rw [inv.above_iff here reading]
      constructor
      · intro before j ends' k lt
        rw [← ends.unique ends'] at lt
        exact before k lt
      · exact fun orderly => orderly i ends
    rw [above]
    simp
  · rw [same]
    exact ⟨fun increasing => ⟨increasing, fun i ends => absurd ends (quiet i)⟩, fun h => h.1⟩

/-- The user sees newer and newer versions, each with what the peer sent for it, exactly
when every stream that is read ends before those of later answers. -/
theorem received_iff (events : List Event) :
    Good (run events) ↔ ∀ k e, events[k]? = some e → Orderly (run (events.take k)) e := by
  have increasing : (versions (run events)).Pairwise (· < ·) ↔
      ∀ k e, events[k]? = some e → Orderly (run (events.take k)) e := by
    induction events using List.reverseRecOn with
    | nil => simp [run, start, versions]
    | append_singleton events e ih =>
      rw [run_snoc, increasing_step (inv_run events), ih]
      constructor
      · intro ⟨orderly, last⟩ k e' here
        rw [List.getElem?_append] at here
        split at here
        · rename_i lt
          rw [List.take_append_of_le_length lt.le]
          exact orderly k e' here
        · have : k - events.length = 0 := by
            by_contra
            rw [List.getElem?_eq_none (by simp; omega)] at here
            cases here
          have : k = events.length := by omega
          subst this
          simp only [Nat.sub_self, List.getElem?_cons_zero, Option.some.injEq] at here
          rw [List.take_left, ← here]
          exact last
      · intro orderly
        refine ⟨?_, ?_⟩
        · intro k e' here
          have lt := (List.getElem?_eq_some_iff.mp here).1
          have := orderly k e' (by rw [List.getElem?_append_left lt]; exact here)
          rw [List.take_append_of_le_length lt.le] at this
          exact this
        · have := orderly events.length e (by simp)
          rw [List.take_left] at this
          exact this
  constructor
  · exact fun good => increasing.mp good.increasing
  · exact fun orderly => ⟨increasing.mpr orderly, (inv_run events).exact⟩

/-- The newer version is faster: the older one comes after it. -/
theorem older_after_newer : ¬ ∀ events : List Event, Good (run events) := by
  intro all
  have increasing := (all [.result ⟨1, 0⟩ [7], .result ⟨2, 0⟩ [8], .data 1 1, .shutdown 1, .data 0 1, .shutdown 0]).increasing
  exact absurd increasing (by decide)

end BubbleStorm.Durable.Lookup
