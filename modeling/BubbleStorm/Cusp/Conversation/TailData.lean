/-
  BubbleStorm.Cusp.Conversation.TailData — the tail of a method that is a vector or a
  string (`TailData.vector` of conversation.fun), read from an `InStreamQueue`.

  The receiver asks for what is left of `maxLength`, and asks again from the callback that
  brings it. It means to give up with more than `maxLength` bytes; but with exactly that
  many it asks for none, and a request for none is answered at once by an empty slice
  while anything is ready: it asks again, for ever (`read_diverges`).

  The chain of reads ends, with exactly the bytes of the peer, for every way they arrive,
  exactly if the peer writes no more than `maxLength` (`bounded_iff`).
-/

import BubbleStorm.Cusp.Stream.InStreamInvariant

namespace BubbleStorm.Cusp.Conversation.TailData

open BubbleStorm.Cusp.Stream BubbleStorm.Cusp.Stream.InStreamQueue Span

/-! ## The receiver -/

inductive Outcome where
  | reading
  /-- The method is called. -/
  | finished (v : Bytes)
  | reset
  | exceeded
  deriving DecidableEq, Repr

/-- The stream, and the reader of it; the newest chunk is the first. -/
structure Tail where
  instream : InStreamQueue.T
  chunks : List Bytes
  have' : Int
  outcome : Outcome
  deriving DecidableEq, Repr

/-- What a call of the stream has told the reader. -/
def handed (q q' : InStreamQueue.T) : Option Status :=
  (q'.log.drop q.log.length).findSome? fun
    | .reader _ s => some s
    | .event _ => none

/-- The reader goes on with `again`. -/
def complete (again : Tail → Option Tail) (maxLength : Nat) (st : Tail) : Option Status → Option Tail
  | none => some st
  | some .shutdown => some { st with outcome := .finished st.chunks.reverse.flatten }
  | some .reset => some { st with outcome := .reset }
  | some (.data a) =>
    let st : Tail := { st with chunks := a :: st.chunks, have' := st.have' + a.length }
    if (maxLength : Int) < st.have' then some { st with instream := InStreamQueue.reset st.instream, outcome := .exceeded }
    else again st

/-- `none` when the first argument, a bound for the reads, is reached. -/
def read (maxLength : Nat) : Nat → Tail → Option Tail
  | 0, _ => none
  | fuel + 1, st =>
    match InStreamQueue.read st.instream (maxLength - st.have') 0 with
    | .ok instream => complete (read maxLength fuel) maxLength { st with instream := instream } (handed st.instream instream)
    | .error _ => some st

/-- A DATA segment with the bytes of a position, and perhaps the end of the stream. -/
structure Arrival where
  position : Int
  data : Bytes
  eof : Bool
  deriving DecidableEq, Repr

/-- As in `recvDATA`: the reader is fed, and then the end is told. -/
def arrive (maxLength fuel : Nat) (st : Tail) (a : Arrival) : Option Tail := do
  let (instream, _) := recvData st.instream (word32 a.position) a.data
  let st ← complete (read maxLength fuel) maxLength { st with instream := instream } (handed st.instream instream)
  if a.eof then
    let instream := shutdown st.instream (word32 (a.position + a.data.length))
    complete (read maxLength fuel) maxLength { st with instream := instream } (handed st.instream instream)
  else some st

def start (id : Nat) : Tail := ⟨new id, [], 0, .reading⟩

/-! ## Runs -/

/-- A segment of the stream `w` that comes within half the number circle. -/
structure Legal (w : Bytes) (st : Tail) (a : Arrival) : Prop where
  piece : At w a.position a.data
  after : a.position ≤ st.instream.offset + 2 ^ 31
  before : st.instream.offset < a.position + 2 ^ 31
  short : a.data.length < 4096
  eof : a.eof = true → a.position + a.data.length = w.length

/-- What a segment leads to, when the reads end. -/
def Arrives (maxLength : Nat) (st : Tail) (a : Arrival) (st' : Tail) : Prop := ∃ fuel, arrive maxLength fuel st a = some st'

inductive Reach (maxLength id : Nat) (w : Bytes) : Tail → Prop where
  | start {fuel : Nat} {st : Tail} (first : read maxLength fuel (start id) = some st) : Reach maxLength id w st
  | arrive {st st' : Tail} {a : Arrival} (before : Reach maxLength id w st) (legal : Legal w st a)
      (next : Arrives maxLength st a st') : Reach maxLength id w st'

/-- The method gets the bytes of the peer and nothing else, once they are all there; the
    stream is reset once there are too many. -/
structure Right (maxLength : Nat) (w : Bytes) (st : Tail) : Prop where
  exact : ∀ v, st.outcome = .finished v → v = w
  all : ∀ eof, st.instream.state = .amShutdown eof → st.instream.offset = w.length → w.length ≤ maxLength → st.outcome = .finished w
  exceeded : maxLength < st.instream.offset → st.outcome = .exceeded ∧ isReset st.instream = true

/-- Every segment of every run ends its reads, and all is right then. -/
def Bounded (maxLength id : Nat) (w : Bytes) : Prop :=
  ∀ st, Reach maxLength id w st → ∀ a, Legal w st a → ∃ st', Arrives maxLength st a st' ∧ Right maxLength w st'

/-! ## What the reader is told -/

variable {maxLength id : Nat} {w : Bytes} {st : Tail} {q q' : InStreamQueue.T} {l : List Out}

theorem findSome_plain (plain : Plain l) : (l.findSome? fun
    | .reader _ s => some s
    | .event _ => none) = (none : Option Status) := by
  rw [List.findSome?_eq_none_iff]
  intro o mem
  obtain ⟨e, rfl⟩ := plain o mem
  rfl

theorem handed_plain (plain : Plain l) (log : q'.log = q.log ++ l) : handed q q' = none := by
  rw [handed, log, List.drop_left]
  exact findSome_plain plain

theorem handed_reader (plain : Plain l) {cb : Nat} {s : Status} (log : q'.log = q.log ++ (l ++ [.reader cb s])) :
    handed q q' = some s := by
  rw [handed, log, List.drop_left, List.findSome?_append]
  rw [show (l.findSome? fun | .reader _ s => some s | .event _ => none) = (none : Option Status) from findSome_plain plain]
  rfl

/-! ## The reads end -/

/-- The chunks are what the stream has handed out. -/
structure Books (w : Bytes) (st : Tail) : Prop where
  receives : Receives w st.instream fun _ => False
  chunks : st.chunks.reverse.flatten = delivered st.instream.log
  length : st.have' = (delivered st.instream.log).length

/-- The reader waits, for all that is left, or has called the method with everything. -/
structure Sound (maxLength : Nat) (w : Bytes) (st : Tail) : Prop extends Books w st where
  outcome : st.outcome = .reading ∧ st.instream.reader = some 0 ∧ st.instream.bufferSize = maxLength - st.have' ∧
        (∀ eof, st.instream.state = .amShutdown eof → st.instream.offset ≠ w.length) ∨
    st.outcome = .finished w ∧ st.instream.bufferSize = noBuffer ∧ st.instream.offset = w.length

theorem Books.total (h : Books w st) : st.have' + st.instream.ready.flatten.length = st.instream.offset := by
  have handed := congrArg List.length h.receives.handed
  have nonneg := h.receives.nonneg
  have le := h.receives.le
  rw [List.length_append, List.length_take] at handed
  have length := h.length
  omega

theorem Books.delivered_all (h : Books w st) (ready : st.instream.ready = []) (all : st.instream.offset = w.length) :
    st.chunks.reverse.flatten = w := by
  have handed := h.receives.handed
  rw [ready, all] at handed
  rw [h.chunks]
  simpa using handed

theorem Sound.right (h : Sound maxLength w st) (fits : w.length ≤ maxLength) : Right maxLength w st := by
  refine ⟨?_, ?_, ?_⟩
  · intro v eq
    rcases h.outcome with ⟨reading, -⟩ | ⟨finished, -⟩
    · rw [reading] at eq
      cases eq
    · rw [finished] at eq
      exact (Outcome.finished.inj eq).symm
  · intro eof down all _
    rcases h.outcome with ⟨-, -, -, more⟩ | ⟨finished, -⟩
    · exact absurd all (more eof down)
    · exact finished
  · intro more
    have := h.receives.le
    omega

/-- More data, that fits: the reader goes on. -/
theorem complete_data (again : Tail → Option Tail) {a : Bytes} (fits : st.have' + a.length ≤ maxLength) :
    complete again maxLength st (some (.data a)) =
      again { st with chunks := a :: st.chunks, have' := st.have' + a.length } := by
  rw [complete]
  exact if_neg (by simpa using fits)

/-- A stream that nobody waits for. -/
structure Open (w : Bytes) (st : Tail) : Prop extends Books w st where
  reading : st.outcome = .reading
  free : st.instream.bufferSize = noBuffer

theorem Open.read_ok (h : Open w st) (fits : w.length ≤ maxLength) :
    InStreamQueue.read st.instream (maxLength - st.have') 0 =
      match st.instream.ready with
      | [] =>
        if atEOF st.instream then
          .ok (runReader (finishRead (callback st.instream .becameComplete) [] noBuffer none 0) (some 0) .shutdown)
        else .ok (finishRead st.instream [] (maxLength - st.have') (some 0) 0)
      | slice :: ready =>
        .ok (runReader (finishRead st.instream ready noBuffer none slice.length) (some 0) (.data slice)) := by
  have total := h.total
  have le := h.receives.le
  rw [InStreamQueue.read, h.receives.live, if_neg (by simp), if_neg (by simp [h.free]), if_neg (by omega)]
  cases ready : st.instream.ready with
  | nil => rfl
  | cons slice rest =>
    rw [ready, List.flatten_cons, List.length_append] at total
    simp only
    rw [if_pos (.inr (by omega))]

/-- The end is told to a reader who has everything. -/
theorem Books.finish (h : Books w st) (ready : st.instream.ready = []) (all : st.instream.offset = w.length) {q' : InStreamQueue.T}
    (told : Receives w q' fun _ => False) (plain : Plain l) (log : q'.log = st.instream.log ++ (l ++ [.reader 0 .shutdown]))
    (free : q'.bufferSize = noBuffer) (offset : q'.offset = st.instream.offset) (again : Tail → Option Tail) :
    ∃ st', complete again maxLength { st with instream := q' } (handed st.instream q') = some st' ∧ Sound maxLength w st' ∧
      st'.instream.offset = st.instream.offset := by
  rw [handed_reader plain log]
  refine ⟨{ st with instream := q', outcome := .finished st.chunks.reverse.flatten }, rfl,
    ⟨⟨told, ?_, ?_⟩, .inr ⟨?_, free, ?_⟩⟩, offset⟩
  · show st.chunks.reverse.flatten = delivered q'.log
    rw [h.chunks, log]
    simp [plain.delivered]
  · show st.have' = (delivered q'.log).length
    rw [h.length, log]
    simp [plain.delivered]
  · exact congrArg Outcome.finished (h.delivered_all ready all)
  · exact offset.trans all

/-- Every read hands out a ready slice, waits, or is told of the end. -/
theorem Open.read_ends (n : Nat) : ∀ st : Tail, Open w st → w.length ≤ maxLength → st.instream.ready.length = n →
    ∃ fuel st', read maxLength fuel st = some st' ∧ Sound maxLength w st' ∧ st'.instream.offset = st.instream.offset := by
  induction n with
  | zero =>
    intro st h fits empty
    have ready := List.eq_nil_of_length_eq_zero empty
    have ok := h.read_ok fits
    rw [ready] at ok
    simp only at ok
    by_cases eof : atEOF st.instream = true
    · rw [if_pos eof] at ok
      have told := h.receives.read ok
      have frame := read_frame ok
      obtain ⟨l, plain, log⟩ := finishRead_cases (callback st.instream .becameComplete) [] noBuffer none 0
      have all : st.instream.offset = w.length := by
        cases state : st.instream.state with
        | amShutdown e =>
          simp only [atEOF, state] at eof
          exact h.receives.at_end state eof
        | _ => simp [atEOF, state] at eof
      obtain ⟨st', done, sound, offset⟩ := h.finish ready all told ((plain_event .becameComplete).append plain)
        (by rw [runReader_eq, log]; simp [InStreamQueue.T.ran, callback, emit, InStreamQueue.T.advanced])
        (by rw [runReader_eq, log]; rfl) frame.1 (read maxLength 0)
      refine ⟨1, st', ?_, sound, offset⟩
      rw [read, ok]
      exact done
    · rw [if_neg eof] at ok
      have told := h.receives.read ok
      have frame := read_frame ok
      obtain ⟨l, plain, log⟩ := finishRead_cases st.instream [] (maxLength - st.have') (some 0) 0
      have log' : (finishRead st.instream [] (maxLength - st.have') (some 0) 0).log = st.instream.log ++ l := by
        rw [log]
        rfl
      refine ⟨1, { st with instream := finishRead st.instream [] (maxLength - st.have') (some 0) 0 }, ?_,
        ⟨⟨told, ?_, ?_⟩, .inl ⟨h.reading, ?_, ?_, ?_⟩⟩, frame.1⟩
      · rw [read, ok]
        simp only [handed_plain plain log', complete]
      · rw [log']
        simp [plain.delivered, h.chunks]
      · rw [log']
        simp [plain.delivered, h.length]
      · rw [log]
        rfl
      · rw [log]
        rfl
      · intro e state all
        rw [frame.2] at state
        rw [frame.1] at all
        apply eof
        have ends := (h.receives.ends e state).1
        simp only [atEOF, state, endsAt, all, decide_eq_true_eq]
        exact ends
  | succ n ih =>
    intro st h fits some
    obtain ⟨slice, rest, ready⟩ := List.exists_cons_of_length_eq_add_one some
    have ok := h.read_ok fits
    rw [ready] at ok
    simp only at ok
    have told := h.receives.read ok
    have frame := read_frame ok
    obtain ⟨l, plain, log⟩ := finishRead_cases st.instream rest noBuffer none slice.length
    have log' : (runReader (finishRead st.instream rest noBuffer none slice.length) (.some 0) (.data slice)).log =
        st.instream.log ++ (l ++ [.reader 0 (.data slice)]) := by
      rw [runReader_eq, log]
      simp [InStreamQueue.T.ran, InStreamQueue.T.advanced]
    have total := h.total
    have le := h.receives.le
    rw [ready, List.flatten_cons, List.length_append] at total
    obtain ⟨fuel, st', done, sound, offset⟩ := ih
      { st with instream := runReader (finishRead st.instream rest noBuffer none slice.length) (.some 0) (.data slice),
                chunks := slice :: st.chunks, have' := st.have' + slice.length }
      ⟨⟨told, by rw [log']; simp [plain.delivered, h.chunks], by rw [log']; simp [plain.delivered, h.length]⟩, h.reading,
        by rw [runReader_eq, log]; rfl⟩ fits
      (by
        rw [runReader_eq, log]
        rw [ready] at some
        exact Nat.succ.inj some)
    refine ⟨fuel + 1, st', ?_, sound, offset.trans frame.1⟩
    rw [read, ok]
    simp only [handed_reader plain log']
    rw [complete_data _ (by simp only; omega)]
    exact done

/-- What does not hand out anything leaves the reader as it is. -/
theorem Sound.keep (h : Sound maxLength w st) (receives : Receives w q' fun _ => False) (plain : Plain l)
    (log : q'.log = st.instream.log ++ l) (reader : q'.reader = st.instream.reader)
    (size : q'.bufferSize = st.instream.bufferSize) (offset : q'.offset = st.instream.offset)
    (more : st.outcome = .reading → ∀ eof, q'.state = .amShutdown eof → q'.offset ≠ w.length) (again : Tail → Option Tail) :
    ∃ st', complete again maxLength { st with instream := q' } (handed st.instream q') = some st' ∧ Sound maxLength w st' ∧
      st'.instream.offset = st.instream.offset := by
  rw [handed_plain plain log]
  refine ⟨{ st with instream := q' }, rfl, ⟨⟨receives, ?_, ?_⟩, ?_⟩, offset⟩
  · rw [log]
    simp [plain.delivered, h.chunks]
  · rw [log]
    simp [plain.delivered, h.length]
  · rcases h.outcome with ⟨reading, waiting, asked, -⟩ | ⟨finished, free, all⟩
    · exact .inl ⟨reading, reader.trans waiting, size.trans asked, more reading⟩
    · exact .inr ⟨finished, size.trans free, offset.trans all⟩

theorem Sound.more (h : Sound maxLength w st) :
    st.outcome = .reading → ∀ eof, st.instream.state = .amShutdown eof → st.instream.offset ≠ w.length := by
  intro reading
  rcases h.outcome with ⟨-, -, -, more⟩ | ⟨finished, -⟩
  · exact more
  · rw [reading] at finished
    cases finished

/-- The waiting reader is fed everything that comes. -/
theorem Sound.feed (h : Sound maxLength w st) (fits : w.length ≤ maxLength) {rest : Bytes} (piece : At w st.instream.offset rest)
    (some : rest ≠ []) (told : Receives w (feedReader st.instream rest) fun _ => False) :
    ∃ fuel st', complete (read maxLength fuel) maxLength { st with instream := feedReader st.instream rest }
        (handed st.instream (feedReader st.instream rest)) = .some st' ∧ Sound maxLength w st' ∧
      st'.instream.offset = (feedReader st.instream rest).offset := by
  have within := piece.le
  have pos := List.length_pos_of_ne_nil some
  have total := h.toBooks.total
  rcases h.outcome with ⟨reading, waiting, asked, -⟩ | ⟨-, -, all⟩
  · have busy : st.instream.bufferSize ≠ noBuffer := by
      rw [asked]
      unfold noBuffer
      omega
    obtain ⟨l, plain, fed⟩ := transferQueue_cases h.receives.live none rest.length ((Option.some 0).map (·, rest))
    have eq : feedReader st.instream rest = transferQueue st.instream none rest.length ((Option.some 0).map (·, rest)) := by
      rw [feedReader, if_neg busy, waiting]
      simp only
      rw [if_pos (.inr (by omega))]
    rw [← eq] at fed
    have log : (feedReader st.instream rest).log = st.instream.log ++ (l ++ [.reader 0 (.data rest)]) := by
      rw [fed]
      simp [InStreamQueue.T.ran, InStreamQueue.T.transferred]
    have now : Open w { st with instream := feedReader st.instream rest, chunks := rest :: st.chunks, have' := st.have' + rest.length } := by
      refine ⟨⟨told, ?_, ?_⟩, reading, ?_⟩
      · rw [log]
        simp [plain.delivered, h.chunks]
      · rw [log]
        simp [plain.delivered, h.length]
      · rw [fed]
        rfl
    obtain ⟨fuel, st', done, sound, offset⟩ := Open.read_ends _ _ now fits rfl
    refine ⟨fuel, st', ?_, sound, offset⟩
    rw [handed_reader plain log, complete_data _ (by simp only; omega)]
    exact done
  · omega

theorem Sound.recv (h : Sound maxLength w st) (fits : w.length ≤ maxLength) {a : Arrival} (legal : Legal w st a) :
    ∃ fuel st', complete (read maxLength fuel) maxLength
        { st with instream := (recvData st.instream (word32 a.position) a.data).1 }
        (handed st.instream (recvData st.instream (word32 a.position) a.data).1) = some st' ∧ Sound maxLength w st' ∧
      st.instream.offset ≤ st'.instream.offset := by
  have word : (word32 a.position - a.position) % 2 ^ 32 = 0 := by unfold word32; omega
  obtain ⟨told, later⟩ : Receives w (recvData st.instream (word32 a.position) a.data).1 (fun _ => False) ∧
      st.instream.offset ≤ (recvData st.instream (word32 a.position) a.data).1.offset := by
    obtain ⟨told, later, -⟩ := h.receives.recvData legal.piece word legal.after legal.before legal.short
    exact ⟨told.weaken fun p none => none.elim, later⟩
  have sound := classify_sound st.instream a.data word legal.after legal.before
  have within := legal.piece.le
  revert told later
  unfold recvData
  cases kind : classify st.instream (word32 a.position) a.data with
  | reject =>
    intro told _
    obtain ⟨st', done, sound, offset⟩ := h.keep h.receives (l := []) nofun (List.append_nil _).symm rfl rfl rfl h.more (read maxLength 0)
    exact ⟨0, st', done, sound, offset.ge⟩
  | drop =>
    intro told _
    obtain ⟨st', done, sound, offset⟩ := h.keep h.receives (l := []) nofun (List.append_nil _).symm rfl rfl rfl h.more (read maxLength 0)
    exact ⟨0, st', done, sound, offset.ge⟩
  | queue =>
    intro told _
    obtain ⟨st', done, sound, offset⟩ := h.keep told (plain_event (.outOfOrderBytes a.data.length)) rfl rfl rfl rfl h.more (read maxLength 0)
    exact ⟨0, st', done, sound, offset.ge⟩
  | feed rest =>
    intro told later
    rw [kind] at sound
    obtain ⟨rfl, first, last⟩ := sound
    have cut := legal.piece.drop (show (st.instream.offset - a.position).toNat ≤ a.data.length by omega)
    rw [show a.position + ((st.instream.offset - a.position).toNat : Int) = st.instream.offset by omega] at cut
    have some : a.data.drop (st.instream.offset - a.position).toNat ≠ [] := by
      intro none
      have := congrArg List.length none
      rw [List.length_drop] at this
      simp at this
      omega
    obtain ⟨fuel, st', done, sound, offset⟩ := h.feed fits cut some told
    exact ⟨fuel, st', done, sound, later.trans offset.ge⟩

/-- The end of the stream arrives. -/
theorem Sound.shutdown (h : Sound maxLength w st) (fits : w.length ≤ maxLength) {e : Int} (same : word32 e = word32 w.length)
    (near : (w.length : Int) < st.instream.offset + 2 ^ 32) (again : Tail → Option Tail) :
    ∃ st', complete again maxLength { st with instream := InStreamQueue.shutdown st.instream e }
        (handed st.instream (InStreamQueue.shutdown st.instream e)) = some st' ∧ Sound maxLength w st' := by
  have told := h.receives.shutdown same near
  have le := h.receives.le
  have total := h.toBooks.total
  obtain ⟨q2, l, plain, rfl, down⟩ := shutdown_cases st.instream e
  have ends : endsAt e st.instream.offset = true ↔ st.instream.offset = w.length := by
    simp only [endsAt, decide_eq_true_eq, same]
    unfold word32
    omega
  split at down
  · rename_i last
    simp only [Bool.and_eq_true, List.isEmpty_iff, decide_eq_true_eq] at last
    obtain ⟨⟨eof, ready⟩, busy⟩ := last
    rcases h.outcome with ⟨-, waiting, -, -⟩ | ⟨-, free, -⟩
    · obtain ⟨st', done, sound, -⟩ := h.toBooks.finish ready (ends.mp eof) told (plain.append (plain_event .becameComplete))
        (by rw [down, runReader_eq, InStreamQueue.T.ran_reader]; simp [InStreamQueue.T.ran, callback, emit, waiting])
        (by rw [down, runReader_eq]; rfl) (by rw [down, runReader_eq]; rfl) again
      exact ⟨st', done, sound⟩
    · exact absurd free busy
  · rename_i last
    obtain ⟨st', done, sound, -⟩ := h.keep told plain (by rw [down]; rfl) (by rw [down]; rfl) (by rw [down]; rfl) (by rw [down]; rfl)
      (fun reading eof _ all => by
        rw [down] at all
        rcases h.outcome with ⟨-, waiting, asked, -⟩ | ⟨finished, -⟩
        · apply last
          have busy : st.instream.bufferSize ≠ noBuffer := by
            rw [asked]
            unfold noBuffer
            omega
          simp only [Bool.and_eq_true, List.isEmpty_iff, decide_eq_true_eq]
          exact ⟨⟨ends.mpr all, (h.receives.idle busy).1⟩, busy⟩
        · rw [reading] at finished
          cases finished) again
    exact ⟨st', done, sound⟩

theorem Sound.arrive (h : Sound maxLength w st) (fits : w.length ≤ maxLength) {a : Arrival} (legal : Legal w st a) :
    ∃ st', Arrives maxLength st a st' ∧ Sound maxLength w st' := by
  obtain ⟨fuel, st₁, fed, sound, later⟩ := h.recv fits legal
  cases eof : a.eof with
  | false =>
    refine ⟨st₁, ⟨fuel, ?_⟩, sound⟩
    simp only [TailData.arrive, fed, eof]
    rfl
  | true =>
    have last := legal.eof eof
    have after := legal.after
    have short := legal.short
    obtain ⟨st₂, told, sound⟩ := sound.shutdown fits (e := word32 (a.position + a.data.length))
      (by rw [last]; unfold word32; omega) (by omega) (read maxLength fuel)
    refine ⟨st₂, ⟨fuel, ?_⟩, sound⟩
    simp only [TailData.arrive, fed, eof]
    exact told

/-! ## More reads than are made change nothing -/

theorem complete_mono {again again' : Tail → Option Tail} (more : ∀ st st', again st = some st' → again' st = some st')
    {s : Option Status} {st st' : Tail} (done : complete again maxLength st s = some st') :
    complete again' maxLength st s = some st' := by
  match s with
  | none | some .shutdown | some .reset => exact done
  | some (.data a) =>
    simp only [complete] at done ⊢
    split
    · rename_i exceeds
      rwa [if_pos exceeds] at done
    · rename_i exceeds
      rw [if_neg exceeds] at done
      exact more _ _ done

theorem read_mono {fuel fuel' : Nat} (le : fuel ≤ fuel') :
    ∀ st st', read maxLength fuel st = some st' → read maxLength fuel' st = some st' := by
  induction fuel generalizing fuel' with
  | zero =>
    intro st st' done
    cases done
  | succ fuel ih =>
    obtain ⟨fuel', rfl⟩ : ∃ n, fuel' = n + 1 := ⟨fuel' - 1, by omega⟩
    intro st st' done
    simp only [read] at done ⊢
    split at done
    · exact complete_mono (ih (by omega)) done
    · exact done

theorem arrive_mono {fuel fuel' : Nat} (le : fuel ≤ fuel') {a : Arrival} {st' : Tail} (done : arrive maxLength fuel st a = some st') :
    arrive maxLength fuel' st a = some st' := by
  simp only [arrive, bind, Option.bind_eq_some_iff] at done ⊢
  obtain ⟨st₁, fed, told⟩ := done
  refine ⟨st₁, complete_mono (read_mono le) fed, ?_⟩
  split at told
  · rename_i eof
    rw [if_pos eof]
    exact complete_mono (read_mono le) told
  · rename_i eof
    rw [if_neg eof]
    exact told

theorem Arrives.unique {a : Arrival} {st₁ st₂ : Tail} (h₁ : Arrives maxLength st a st₁) (h₂ : Arrives maxLength st a st₂) :
    st₁ = st₂ := by
  obtain ⟨fuel₁, h₁⟩ := h₁
  obtain ⟨fuel₂, h₂⟩ := h₂
  have both := arrive_mono (le_max_left fuel₁ fuel₂) h₁
  rw [arrive_mono (le_max_right fuel₁ fuel₂) h₂] at both
  exact (Option.some.inj both).symm

theorem open_start (id : Nat) (w : Bytes) : Open w (start id) where
  receives :=
    { receives_new id with
      le := Int.natCast_nonneg _
      handed := rfl
      ends := nofun
      ahead := nofun
      complete := nofun
      closed := fun pre cb post log => by
        have := congrArg List.length log
        simp [start, new] at this }
  chunks := rfl
  length := rfl
  reading := rfl
  free := rfl

theorem Reach.sound (fits : w.length ≤ maxLength) (reach : Reach maxLength id w st) : Sound maxLength w st := by
  induction reach with
  | @start fuel st first =>
    obtain ⟨fuel', st', done, sound, -⟩ := Open.read_ends _ _ (open_start id w) fits rfl
    have both := read_mono (le_max_left fuel fuel') _ _ first
    rw [read_mono (le_max_right fuel fuel') _ _ done] at both
    cases both
    exact sound
  | arrive _ legal next ih =>
    obtain ⟨st', next', sound⟩ := ih.arrive fits legal
    rw [next.unique next']
    exact sound

/-! ## A request for none -/

/-- As many bytes are there as there may be, and another one is ready. -/
structure Full (maxLength : Nat) (st : Tail) : Prop where
  live : isReset st.instream = false
  free : st.instream.bufferSize = noBuffer
  have' : st.have' = maxLength
  ready : ∃ d rest, st.instream.ready = d :: rest ∧ d ≠ []

/-- The reader asks for no bytes, gets none, and asks again. -/
theorem read_diverges (fuel : Nat) : ∀ st : Tail, Full maxLength st → read maxLength fuel st = none := by
  induction fuel with
  | zero => exact fun _ _ => rfl
  | succ fuel ih =>
    intro st full
    obtain ⟨d, rest, ready, some⟩ := full.ready
    have pos := List.length_pos_of_ne_nil some
    have ok : InStreamQueue.read st.instream (maxLength - st.have') 0 =
        .ok (runReader (finishRead st.instream (d :: rest) noBuffer none 0) (.some 0) (.data [])) := by
      rw [InStreamQueue.read, full.live, if_neg (by simp), if_neg (by simp [full.free]), full.have', Int.sub_self, if_neg (by omega), ready]
      simp only
      rw [if_neg (by omega)]
      rfl
    obtain ⟨l, plain, log⟩ := finishRead_cases st.instream (d :: rest) noBuffer none 0
    have log' : (runReader (finishRead st.instream (d :: rest) noBuffer none 0) (.some 0) (.data [])).log =
        st.instream.log ++ (l ++ [.reader 0 (.data [])]) := by
      rw [runReader_eq, log]
      simp [InStreamQueue.T.ran, InStreamQueue.T.advanced]
    rw [read, ok]
    simp only [handed_reader plain log']
    rw [complete_data _ (by simp [full.have'])]
    apply ih
    refine ⟨?_, ?_, by simp [full.have'], d, rest, ?_, some⟩
    · rw [runReader_eq, log]
      exact full.live
    · rw [runReader_eq, log]
      rfl
    · rw [runReader_eq, log]
      rfl

/-- The first `n` bytes have come one by one, and the reader waits for the rest. -/
structure Waits (maxLength n : Nat) (st : Tail) : Prop where
  kept : Kept st.instream
  state : st.instream.state = .amConnected
  queue : st.instream.queue = []
  ready : st.instream.ready = []
  offset : st.instream.offset = n
  reader : st.instream.reader = some 0
  size : st.instream.bufferSize = maxLength - n
  have' : st.have' = n

variable {n : Nat}

theorem Waits.live (h : Waits maxLength n st) : isReset st.instream = false := by
  simp [isReset, h.state]

/-- The next byte is one the reader is fed. -/
theorem Waits.classify (h : Waits maxLength n st) (d : UInt8) : classify st.instream (word32 n) [d] = .feed [d] := by
  have low := h.kept.low h.live
  have high := h.kept.high
  have window := h.kept.window.1
  have bytes := h.kept.bytes
  rw [h.ready] at bytes
  have reader : readerOffset st.instream = n := by
    rw [readerOffset, h.offset, bytes]
    simp
  rw [reader] at low high
  have inside : Key.lt st.instream.barrier (word32 n + ([d] : Bytes).length) = false := by
    rw [Key.lt_def, decide_eq_false_iff_not]
    unfold word32 maximumWindow minimumWindow at *
    simp only [List.length_singleton]
    omega
  have delta : word32 (st.instream.offset - word32 n) = 0 := by
    rw [h.offset]
    unfold word32
    omega
  unfold InStreamQueue.classify
  simp only [inside, delta]
  rfl

theorem Waits.transfer (h : Waits maxLength n st) (tail : Option Bytes) (report : Bytes) (d : UInt8)
    (all : report ++ tail.getD [] = [d]) :
    ∃ l, Plain l ∧ transferQueue st.instream tail report.length (some (0, report)) =
      ((st.instream.transferred report.length (n + 1, 0, tail.toList, [])).ran l).ran [.reader 0 (.data report)] := by
  obtain ⟨l, plain, eq⟩ := transferQueue_cases h.live tail report.length (some (0, report))
  refine ⟨l, plain, ?_⟩
  have one := congrArg List.length all
  rw [List.length_append, List.length_singleton] at one
  rw [eq, h.queue, h.ready, h.offset]
  simp only [List.length_nil, process, List.nil_append]
  rw [show (n : Int) + report.length + (tail.getD []).length = n + 1 by omega]
  rfl

theorem Waits.next (h : Waits maxLength n st) (more : n < maxLength) (d : UInt8) :
    ∃ st', Arrives maxLength st ⟨n, [d], false⟩ st' ∧ Waits maxLength (n + 1) st' := by
  obtain ⟨l, plain, fed⟩ := h.transfer none [d] d rfl
  have one : (([d] : Bytes).length : Int) = 1 := rfl
  have kept := h.kept.recvData (word32 n) (show ([d] : Bytes).length < 4096 by simp)
  have busy : st.instream.bufferSize ≠ noBuffer := by
    rw [h.size]
    unfold noBuffer
    omega
  have eq : (recvData st.instream (word32 n) [d]).1 =
      ((st.instream.transferred 1 (n + 1, 0, [], [])).ran l).ran [.reader 0 (.data [d])] := by
    rw [recvData, h.classify]
    show feedReader st.instream [d] = _
    rw [feedReader, if_neg busy, h.reader, h.size]
    simp only
    rw [if_pos (.inr (by omega))]
    exact fed
  rw [eq] at kept
  generalize ran : ((st.instream.transferred 1 (n + 1, 0, [], [])).ran l).ran [.reader 0 (.data [d])] = q at eq kept
  have ready : q.ready = [] := by rw [← ran]; rfl
  have state : q.state = .amConnected := by rw [← ran]; exact h.state
  have free : q.bufferSize = noBuffer := by rw [← ran]; rfl
  have offset : q.offset = n + 1 := by rw [← ran]; rfl
  have queue : q.queue = [] := by rw [← ran]; rfl
  have log : q.log = st.instream.log ++ (l ++ [.reader 0 (.data [d])]) := by
    rw [← ran]
    simp [InStreamQueue.T.ran, InStreamQueue.T.transferred]
  have told : handed st.instream q = some (.data [d]) := handed_reader plain log
  have got : st.have' + ([d] : Bytes).length = (n + 1 : Nat) := by
    rw [h.have', one]
    rfl
  have ok : InStreamQueue.read q (maxLength - (n + 1 : Nat)) 0 = .ok (finishRead q [] (maxLength - (n + 1 : Nat)) (some 0) 0) := by
    rw [InStreamQueue.read, if_neg (by simp [isReset, state]), if_neg (by simp [free]), if_neg (by omega), ready]
    simp only [atEOF, state]
    rfl
  obtain ⟨l', plain', log⟩ := finishRead_cases q [] (maxLength - (n + 1 : Nat)) (some 0) 0
  have none : handed q (finishRead q [] (maxLength - (n + 1 : Nat)) (some 0) 0) = none := by
    apply handed_plain plain'
    rw [log]
    rfl
  refine ⟨⟨finishRead q [] (maxLength - (n + 1 : Nat)) (some 0) 0, [d] :: st.chunks, (n + 1 : Nat), st.outcome⟩, ⟨1, ?_⟩,
    kept.read ok, ?_, ?_, ?_, ?_, ?_, ?_, rfl⟩
  · simp only [arrive, bind, Option.bind_eq_some_iff, eq, told]
    refine ⟨_, ?_, rfl⟩
    rw [complete_data _ (by simp only [got]; omega), got, read]
    simp only [ok, none]
    rfl
  · rw [log]
    exact state
  · rw [log]
    exact queue
  · rw [log]
    rfl
  · rw [log]
    exact offset
  · rw [log]
    rfl
  · rw [log]
    rfl

/-- One byte more than there may be, and the reads never end. -/
theorem Waits.diverges (h : Waits maxLength maxLength st) (d : UInt8) (st' : Tail) :
    ¬ Arrives maxLength st ⟨maxLength, [d], false⟩ st' := by
  intro ⟨fuel, done⟩
  obtain ⟨l, plain, fed⟩ := h.transfer (some [d]) [] d rfl
  have size := h.size
  rw [Int.sub_self] at size
  have eq : (recvData st.instream (word32 maxLength) [d]).1 =
      ((st.instream.transferred 0 (maxLength + 1, 0, [[d]], [])).ran l).ran [.reader 0 (.data [])] := by
    rw [recvData, h.classify]
    show feedReader st.instream [d] = _
    rw [feedReader, if_neg (by rw [size]; decide), h.reader, size]
    exact fed
  have log : (recvData st.instream (word32 maxLength) [d]).1.log = st.instream.log ++ (l ++ [.reader 0 (.data [])]) := by
    rw [eq]
    simp [InStreamQueue.T.ran, InStreamQueue.T.transferred]
  have told := handed_reader plain log
  simp only [arrive, bind, Option.bind_eq_some_iff, told] at done
  obtain ⟨st₁, done, -⟩ := done
  rw [complete_data _ (by simp [h.have']), read_diverges] at done
  · cases done
  · rw [eq]
    refine ⟨h.live, rfl, by simp [h.have'], [d], [], rfl, by simp⟩

theorem waits_start (maxLength id : Nat) : ∃ st, read maxLength 1 (start id) = some st ∧ Waits maxLength 0 st := by
  have ok : InStreamQueue.read (new id) (maxLength - 0) 0 = .ok (finishRead (new id) [] (maxLength - 0) (some 0) 0) := by
    rw [InStreamQueue.read, if_neg (by simp [isReset, new]), if_neg (by simp [new]), if_neg (by omega)]
    rfl
  obtain ⟨l, plain, log⟩ := finishRead_cases (new id) [] (maxLength - 0) (some 0) 0
  have none : handed (new id) (finishRead (new id) [] (maxLength - 0) (some 0) 0) = none := by
    apply handed_plain plain
    rw [log]
    rfl
  refine ⟨⟨finishRead (new id) [] (maxLength - 0) (some 0) 0, [], 0, .reading⟩, ?_, (kept_new id).read ok, ?_, ?_, ?_, ?_, ?_, ?_, rfl⟩
  · rw [read]
    simp only [start, ok, none]
    rfl
  all_goals
    rw [log]
    rfl

theorem Waits.legal (h : Waits maxLength n st) {d : UInt8} (next : w[n]? = some d) : Legal w st ⟨n, [d], false⟩ where
  piece := by
    obtain ⟨short, rfl⟩ := List.getElem?_eq_some_iff.mp next
    refine ⟨w.take n, w.drop (n + 1), ?_, ?_⟩
    · rw [List.append_assoc]
      exact (List.take_append_drop n w).symm.trans (congrArg _ (List.drop_eq_getElem_cons short))
    · rw [List.length_take_of_le short.le]
  after := by
    rw [h.offset]
    simp only
    omega
  before := by
    rw [h.offset]
    simp only
    omega
  short := by simp
  eof := nofun

/-- The reads end, and all is right, for every way the stream arrives exactly if it is no
    longer than `maxLength`. -/
theorem bounded_iff (maxLength id : Nat) (w : Bytes) : Bounded maxLength id w ↔ w.length ≤ maxLength := by
  constructor
  · intro bounded
    by_contra long
    have come : ∀ n ≤ maxLength, ∃ st, Reach maxLength id w st ∧ Waits maxLength n st := by
      intro n
      induction n with
      | zero =>
        intro _
        obtain ⟨st, first, waits⟩ := waits_start maxLength id
        exact ⟨st, .start first, waits⟩
      | succ n ih =>
        intro le
        obtain ⟨st, reach, waits⟩ := ih (by omega)
        have next : w[n]? = some w[n] := List.getElem?_eq_getElem (by omega)
        obtain ⟨st', arrives, waits'⟩ := waits.next le w[n]
        exact ⟨st', reach.arrive (waits.legal next) arrives, waits'⟩
    obtain ⟨st, reach, waits⟩ := come maxLength le_rfl
    have next : w[maxLength]? = some w[maxLength] := List.getElem?_eq_getElem (by omega)
    obtain ⟨st', arrives, -⟩ := bounded st reach _ (waits.legal next)
    exact waits.diverges _ st' arrives
  · intro fits st reach a legal
    obtain ⟨st', arrives, sound⟩ := (reach.sound fits).arrive fits legal
    exact ⟨st', arrives, sound.right fits⟩

/-- A byte for a reader who is to have none. -/
theorem one_too_many : ¬ ∀ (maxLength id : Nat) (w : Bytes), Bounded maxLength id w := by
  intro bounded
  obtain ⟨st, first, waits⟩ := waits_start 0 0
  have next : ([7] : Bytes)[0]? = some 7 := rfl
  obtain ⟨st', arrives, -⟩ := bounded 0 0 [7] st (.start first) _ (waits.legal next)
  exact waits.diverges 7 st' arrives

end BubbleStorm.Cusp.Conversation.TailData
