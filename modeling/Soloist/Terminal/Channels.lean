import Soloist.Feed
import Soloist.Ids
import Soloist.Slots
import Soloist.Terminal.Scrollback

/-! The registry of terminal channels. A channel's buffers and its live broadcast are shared by the
recorders of every actor the process has had and outlive each of them; appending a chunk and
publishing it are one step, and so are a viewer's snapshot and its subscription. -/
open List Option Slots

namespace Soloist

def liveCapacity : ℕ := 256

/-- What became of a stream's output. -/
inductive OutputEvent
  | chunk (data : Bytes)
  | cleared
  deriving DecidableEq, Repr

def OutputEvent.chunks (log : List OutputEvent) : List Bytes :=
  log.filterMap fun e =>
    match e with
    | .chunk data => some data
    | .cleared => none

def OutputEvent.sinceClear (log : List OutputEvent) : Bytes :=
  log.foldl (fun bytes e =>
    match e with
    | .chunk data => bytes ++ data
    | .cleared => []) []

/-- The buffers a channel shares with its recorders, and all that was output to them. -/
structure Stream where
  buffers : TerminalBuffers
  log : List OutputEvent
  deriving DecidableEq, Repr

/-- A viewer: what it replays, its subscription, and what it has read of it. -/
structure Viewer where
  process : ProcessId
  stream : ℕ
  scrollback : Bytes
  feed : Feed Bytes
  received : List (Option Bytes)
  /-- The log at the attach. -/
  seen : List OutputEvent
  /-- Whether the process was removed since. -/
  removed : Bool
  deriving DecidableEq

structure Terminals where
  channels : Slots ProcessId ℕ
  streams : Slots ℕ Stream
  nextStream : ℕ
  /-- The stream each actor's recorder writes to. -/
  recorders : Slots ℕ ℕ
  viewers : Slots ℕ Viewer

inductive TerminalEvent
  | open (id : ProcessId) (actor : ℕ)
  | record (actor : ℕ) (data : Bytes) (signals : List TerminalSignal) (overflow : ℕ)
  | markRestart (actor : ℕ) (signals : List TerminalSignal) (overflow : ℕ)
  | clear (id : ProcessId)
  | attach (id : ProcessId) (viewer : ℕ)
  /-- The viewer reads its subscription. -/
  | recv (viewer : ℕ)
  | remove (id : ProcessId)

def Stream.new : Stream := ⟨.shared, []⟩

def Stream.ingest (data : Bytes) (signals : List TerminalSignal) (overflow : ℕ) (k : Stream) :
    Stream :=
  ⟨k.buffers.ingest data signals overflow, k.log ++ [.chunk data]⟩

def Stream.clear (k : Stream) : Stream := ⟨k.buffers.clear, k.log ++ [.cleared]⟩

def Viewer.send (stream : ℕ) (data : Bytes) (w : Viewer) : Viewer :=
  if w.stream = stream then { w with feed := w.feed.publish liveCapacity data } else w

namespace Terminals

def new : Terminals := ⟨.empty, .empty, 0, .empty, .empty⟩

def publish (s : Terminals) (stream : ℕ) (data : Bytes) (signals : List TerminalSignal)
    (overflow : ℕ) : Terminals :=
  { s with
    streams := s.streams.modify stream (Stream.ingest data signals overflow)
    viewers := fun v => (s.viewers v).map (Viewer.send stream data) }

/-- A relaunch reuses the buffers and the live sender. -/
def «open» (s : Terminals) (id : ProcessId) (actor : ℕ) : Terminals :=
  match s.channels id with
  | some stream => { s with recorders := s.recorders.put actor stream }
  | none =>
    { s with
      channels := s.channels.put id s.nextStream
      streams := s.streams.put s.nextStream .new
      nextStream := s.nextStream + 1
      recorders := s.recorders.put actor s.nextStream }

def markRestart (s : Terminals) (stream : ℕ) (k : Stream) (signals : List TerminalSignal)
    (overflow : ℕ) : Terminals :=
  if k.buffers.hasOutput then s.publish stream restartBanner signals overflow else s

def clear (s : Terminals) (id : ProcessId) : Terminals :=
  match s.channels id with
  | some stream => { s with streams := s.streams.modify stream Stream.clear }
  | none => s

def attach (s : Terminals) (id : ProcessId) (viewer : ℕ) : Terminals :=
  match (s.channels id).bind fun stream => (s.streams stream).map fun k => (stream, k) with
  | some (stream, k) =>
    { s with
      viewers := s.viewers.put viewer
        ⟨id, stream, k.buffers.raw.bytes, Feed.empty, [], k.log, false⟩ }
  | none => s

def remove (s : Terminals) (id : ProcessId) : Terminals :=
  { s with
    channels := s.channels.erase id
    viewers := fun v => (s.viewers v).map fun w =>
      if w.process = id then { w with removed := true } else w }

def step (s : Terminals) : TerminalEvent → Option Terminals
  | .open id actor => if (s.recorders actor).isNone then some (s.open id actor) else none
  | .record actor data signals overflow =>
    (s.recorders actor).map fun stream => s.publish stream data signals overflow
  | .markRestart actor signals overflow =>
    (s.recorders actor).bind fun stream =>
      (s.streams stream).map fun k => s.markRestart stream k signals overflow
  | .clear id => some (s.clear id)
  | .attach id viewer => if (s.viewers viewer).isNone then some (s.attach id viewer) else none
  | .recv viewer =>
    (s.viewers viewer).bind fun w => w.feed.recv.map fun (read, feed) =>
      { s with
        viewers := s.viewers.put viewer { w with feed, received := w.received ++ [read] } }
  | .remove id => some (s.remove id)

end Terminals

/-- Any number of actors and viewers, in any interleaving. -/
def terminalMachine : Machine Terminals TerminalEvent where
  init s := s = .new
  step := Terminals.step

namespace OutputEvent
variable {log : List OutputEvent} {data : Bytes}

theorem chunks_append (log later : List OutputEvent) :
    chunks (log ++ later) = chunks log ++ chunks later := filterMap_append

@[simp] theorem sinceClear_chunk : sinceClear (log ++ [.chunk data]) = sinceClear log ++ data := by
  unfold sinceClear
  rw [foldl_append]
  rfl

end OutputEvent

/-- The scrollback is the newest of what was output since the last clear. -/
def Stream.Retains (k : Stream) : Prop :=
  k.buffers.raw.bytes <:+ OutputEvent.sinceClear k.log

namespace Stream
variable {k : Stream} {data : Bytes} {signals : List TerminalSignal} {overflow : ℕ}

theorem Retains.ingest (h : k.Retains) : (k.ingest data signals overflow).Retains := by
  show _ <:+ OutputEvent.sinceClear (k.log ++ [.chunk data])
  rw [OutputEvent.sinceClear_chunk]
  exact RawScrollback.suffix_extend h overflow

theorem Retains.clear : k.clear.Retains := nil_suffix

end Stream

namespace Viewer
variable {w : Viewer} {k : Stream} {data : Bytes} {signals : List TerminalSignal}
  {overflow stream : ℕ}

/-- The viewer has been told, or is about to be, that it fell behind. -/
def Lags (w : Viewer) : Prop := w.feed.lagged = true ∨ none ∈ w.received

instance : DecidablePred Lags := fun w =>
  inferInstanceAs (Decidable (w.feed.lagged = true ∨ none ∈ w.received))

def delivered (w : Viewer) : List Bytes := w.received.filterMap id ++ w.feed.unread

structure Follows (w : Viewer) (k : Stream) : Prop where
  replay : w.scrollback <:+ OutputEvent.sinceClear w.seen
  live : ∃ later, k.log = w.seen ++ later ∧ (¬ w.Lags → w.delivered = OutputEvent.chunks later)

theorem Follows.send (h : w.Follows k) :
    (w.send w.stream data).Follows (k.ingest data signals overflow) := by
  obtain ⟨later, hlog, hlive⟩ := h.live
  unfold Viewer.send
  rw [if_pos rfl]
  refine ⟨h.replay, later ++ [.chunk data], ?_, ?_⟩
  · show k.log ++ [.chunk data] = w.seen ++ (later ++ [.chunk data])
    rw [hlog, append_assoc]
  · intro hkeeps
    have hroom : w.feed.unread.length < liveCapacity := by
      by_contra hfull
      apply hkeeps
      left
      show (w.feed.publish liveCapacity data).lagged = true
      rw [Feed.publish, if_neg hfull]
    have hfeed : w.feed.publish liveCapacity data =
        { w.feed with unread := w.feed.unread ++ [data] } := if_pos hroom
    have hkept : ¬ w.Lags := by
      rintro (hlag | hgap)
      · apply hkeeps
        left
        show (w.feed.publish liveCapacity data).lagged = true
        rw [hfeed]
        exact hlag
      · exact hkeeps (.inr hgap)
    have hold := hlive hkept
    show w.received.filterMap id ++ (w.feed.publish liveCapacity data).unread = _
    rw [hfeed, OutputEvent.chunks_append, ← hold]
    exact (append_assoc _ _ _).symm

theorem Follows.clear (h : w.Follows k) : w.Follows k.clear := by
  obtain ⟨later, hlog, hlive⟩ := h.live
  refine ⟨h.replay, later ++ [.cleared], ?_, ?_⟩
  · show k.log ++ [.cleared] = w.seen ++ (later ++ [.cleared])
    rw [hlog, append_assoc]
  · intro hkeeps
    rw [OutputEvent.chunks_append, hlive hkeeps]
    exact (append_nil _).symm

/-- A read moves the oldest chunk over, or reports the gap. -/
theorem Follows.recv (h : w.Follows k) {read : Option Bytes} {feed : Feed Bytes}
    (hread : w.feed.recv = some (read, feed)) :
    ({ w with feed, received := w.received ++ [read] } : Viewer).Follows k := by
  obtain ⟨later, hlog, hlive⟩ := h.live
  refine ⟨h.replay, later, hlog, ?_⟩
  intro hkeeps
  have hkept : w.feed.lagged = false := by
    by_contra hlag
    apply hkeeps
    right
    rw [Bool.not_eq_false] at hlag
    rw [Feed.recv, if_pos hlag] at hread
    obtain ⟨rfl, -⟩ := Prod.mk.inj (some.inj hread)
    exact mem_append_right _ (mem_singleton_self _)
  have hold : ¬ w.Lags := by
    rintro (hlag | hgap)
    · rw [hkept] at hlag
      cases hlag
    · exact hkeeps (.inr (mem_append_left _ hgap))
  rw [← hlive hold]
  obtain ⟨rfl, -⟩ | ⟨data, rfl, hunread⟩ := Feed.recv_eq_some hread
  · exact absurd (.inr (mem_append_right _ (mem_singleton_self _))) hkeeps
  · unfold delivered
    rw [filterMap_append, hunread, append_assoc]
    rfl

end Viewer

namespace Terminals

/-- Every channel, recorder and viewer has its stream, and every viewer stands where it should. -/
structure Sound (s : Terminals) : Prop where
  fresh : ∀ k stream, s.streams k = some stream → k < s.nextStream
  channel : ∀ id k, s.channels id = some k → ∃ stream, s.streams k = some stream
  retains : ∀ k stream, s.streams k = some stream → stream.Retains
  viewer : ∀ v w, s.viewers v = some w →
    (∃ stream, s.streams w.stream = some stream ∧ w.Follows stream) ∧
      (w.removed = false → s.channels w.process = some w.stream)

variable {s t : Terminals} {k : ℕ} {data : Bytes} {signals : List TerminalSignal} {overflow : ℕ}
  {id : ProcessId}

theorem sound_new : new.Sound where
  fresh := by
    intro k stream h
    cases h
  channel := by
    intro id k h
    cases h
  retains := by
    intro k stream h
    cases h
  viewer := by
    intro v w h
    cases h

theorem Sound.modify (hs : s.Sound) {f : Stream → Stream} {g : Viewer → Viewer}
    (hretains : ∀ stream, stream.Retains → (f stream).Retains)
    (hsame : ∀ w, (g w).stream = w.stream ∧ (g w).process = w.process ∧
      (g w).removed = w.removed)
    (hother : ∀ w stream, w.stream ≠ k → w.Follows stream → (g w).Follows stream)
    (hfollows : ∀ w stream, w.stream = k → w.Follows stream → (g w).Follows (f stream)) :
    ({ s with streams := s.streams.modify k f, viewers := fun v => (s.viewers v).map g } :
      Terminals).Sound where
  fresh := by
    intro i stream h
    obtain ⟨old, hold, -⟩ := modify_eq_some.mp h
    exact hs.fresh i old hold
  channel := by
    intro id i h
    obtain ⟨stream, hstream⟩ := hs.channel id i h
    exact exists_modify hstream
  retains := by
    intro i stream h
    obtain ⟨old, hold, rfl⟩ := modify_eq_some.mp h
    split_ifs
    · exact hretains old (hs.retains i old hold)
    · exact hs.retains i old hold
  viewer := by
    intro v w' h
    obtain ⟨w, hw, rfl⟩ := map_eq_some_iff.mp h
    obtain ⟨⟨stream, hstream, hw'⟩, hchannel⟩ := hs.viewer v w hw
    obtain ⟨hsame, hprocess, hremoved⟩ := hsame w
    constructor
    · rw [hsame]
      by_cases hk : w.stream = k
      · refine ⟨f stream, ?_, hfollows w stream hk hw'⟩
        exact modify_eq_some.mpr ⟨stream, hstream, if_pos hk⟩
      · refine ⟨stream, ?_, hother w stream hk hw'⟩
        exact modify_eq_some.mpr ⟨stream, hstream, if_neg hk⟩
    · rw [hsame, hprocess, hremoved]
      exact hchannel

theorem Sound.publish (hs : s.Sound) : (s.publish k data signals overflow).Sound := by
  apply hs.modify
  · intro stream hstream
    exact hstream.ingest
  · intro w
    unfold Viewer.send
    split_ifs
    · exact ⟨rfl, rfl, rfl⟩
    · exact ⟨rfl, rfl, rfl⟩
  · intro w stream hk hw
    unfold Viewer.send
    rw [if_neg hk]
    exact hw
  · rintro w stream rfl hw
    exact hw.send

theorem Sound.clear (hs : s.Sound) : (s.clear id).Sound := by
  unfold Terminals.clear
  split
  next k hchannel =>
    have hkept := hs.modify (k := k) (f := Stream.clear) (g := fun w => w)
      (fun _ _ => Stream.Retains.clear) (fun _ => ⟨rfl, rfl, rfl⟩) (fun _ _ _ hw => hw)
      (fun _ _ _ hw => hw.clear)
    have hviewers : (fun v => (s.viewers v).map fun w => w) = s.viewers := by
      funext v
      exact Option.map_id'
    rw [hviewers] at hkept
    exact hkept
  · exact hs

theorem Sound.open (hs : s.Sound) {actor : ℕ} : (s.open id actor).Sound := by
  unfold Terminals.open
  split
  · exact ⟨hs.fresh, hs.channel, hs.retains, hs.viewer⟩
  next hclosed =>
    have hother : ∀ i stream, s.streams i = some stream →
        s.streams.put s.nextStream .new i = some stream := by
      intro i stream h
      have hi : i ≠ s.nextStream := Nat.ne_of_lt (hs.fresh i stream h)
      exact (put_of_ne hi).trans h
    constructor
    · intro i stream h
      obtain ⟨rfl, -⟩ | ⟨-, h⟩ := put_eq_some.mp h
      · exact Nat.lt_succ_self _
      · exact Nat.lt_succ_of_lt (hs.fresh i stream h)
    · intro id' i h
      obtain ⟨-, rfl⟩ | ⟨-, h⟩ := put_eq_some.mp h
      · exact ⟨.new, put_self⟩
      · obtain ⟨stream, hstream⟩ := hs.channel id' i h
        exact ⟨stream, hother i stream hstream⟩
    · intro i stream h
      obtain ⟨-, rfl⟩ | ⟨-, h⟩ := put_eq_some.mp h
      · exact nil_suffix
      · exact hs.retains i stream h
    · intro v w hw
      obtain ⟨⟨stream, hstream, hfollows⟩, hchannel⟩ := hs.viewer v w hw
      refine ⟨⟨stream, hother w.stream stream hstream, hfollows⟩, fun hkept => ?_⟩
      have hopened := hchannel hkept
      have hne : w.process ≠ id := by
        rintro rfl
        rw [hclosed] at hopened
        cases hopened
      exact (put_of_ne hne).trans hopened

variable {viewer : ℕ}

theorem Sound.attach (hs : s.Sound) : (s.attach id viewer).Sound := by
  unfold Terminals.attach
  split
  next k stream hfound =>
    obtain ⟨k', hchannel, hmap⟩ := bind_eq_some_iff.mp hfound
    obtain ⟨stream', hstream, heq⟩ := map_eq_some_iff.mp hmap
    obtain ⟨rfl, rfl⟩ := Prod.mk.inj heq
    refine ⟨hs.fresh, hs.channel, hs.retains, fun v w hw => ?_⟩
    obtain ⟨-, rfl⟩ | ⟨-, hw⟩ := put_eq_some.mp hw
    · refine ⟨⟨stream', hstream, hs.retains k' stream' hstream, [], ?_, fun _ => rfl⟩,
      fun _ => hchannel⟩
      exact (append_nil _).symm
    · exact hs.viewer v w hw
  · exact hs

theorem Sound.recv (hs : s.Sound) {w : Viewer} (hw : s.viewers viewer = some w)
    {read : Option Bytes} {feed : Feed Bytes} (hread : w.feed.recv = some (read, feed)) :
    ({ s with
      viewers := s.viewers.put viewer
        { w with feed, received := w.received ++ [read] } } : Terminals).Sound := by
  refine ⟨hs.fresh, hs.channel, hs.retains, fun v w' hw' => ?_⟩
  obtain ⟨-, rfl⟩ | ⟨-, hw'⟩ := put_eq_some.mp hw'
  · obtain ⟨⟨stream, hstream, hfollows⟩, hchannel⟩ := hs.viewer viewer w hw
    exact ⟨⟨stream, hstream, hfollows.recv hread⟩, hchannel⟩
  · exact hs.viewer v w' hw'

theorem Sound.remove (hs : s.Sound) : (s.remove id).Sound := by
  refine ⟨hs.fresh, ?_, hs.retains, ?_⟩
  · intro id' k h
    exact hs.channel id' k (erase_eq_some.mp h).2
  · intro v w' hw'
    obtain ⟨w, hw, rfl⟩ := map_eq_some_iff.mp hw'
    obtain ⟨⟨stream, hstream, hfollows⟩, hchannel⟩ := hs.viewer v w hw
    split_ifs with hid
    · exact ⟨⟨stream, hstream, hfollows.replay, hfollows.live⟩, fun h => by cases h⟩
    · exact ⟨⟨stream, hstream, hfollows⟩,
        fun hkept => erase_eq_some.mpr ⟨hid, hchannel hkept⟩⟩

theorem Sound.step (hs : s.Sound) (e : TerminalEvent) (ht : s.step e = some t) : t.Sound := by
  cases e with
  | «open» id actor =>
    simp only [Terminals.step, ite_none_right_eq_some, Option.some.injEq] at ht
    obtain ⟨-, rfl⟩ := ht
    exact hs.open
  | record actor data signals overflow =>
    obtain ⟨k, -, rfl⟩ := map_eq_some_iff.mp ht
    exact hs.publish
  | markRestart actor signals overflow =>
    obtain ⟨k, -, hmap⟩ := bind_eq_some_iff.mp ht
    obtain ⟨stream, -, rfl⟩ := map_eq_some_iff.mp hmap
    unfold Terminals.markRestart
    split_ifs
    · exact hs.publish
    · exact hs
  | clear id =>
    cases ht
    exact hs.clear
  | attach id viewer =>
    simp only [Terminals.step, ite_none_right_eq_some, Option.some.injEq] at ht
    obtain ⟨-, rfl⟩ := ht
    exact hs.attach
  | recv viewer =>
    obtain ⟨w, hw, hmap⟩ := bind_eq_some_iff.mp ht
    obtain ⟨⟨read, feed⟩, hread, rfl⟩ := map_eq_some_iff.mp hmap
    exact hs.recv hw hread
  | remove id =>
    cases ht
    exact hs.remove

theorem sound_of_reachable (h : terminalMachine.Reachable s) : s.Sound := by
  refine h.invariant ?_ fun s e t hs ht => hs.step e ht
  rintro s rfl
  exact sound_new

end Terminals

/-- A viewer that keeps up has the newest output there was at its attach, and after it every chunk
recorded since, once and in order, through every relaunch. -/
theorem attach_exact {s : Terminals} (h : terminalMachine.Reachable s) {viewer : ℕ} {w : Viewer}
    (hw : s.viewers viewer = some w) (hkeeps : ¬ w.Lags) :
    ∃ stream later, s.streams w.stream = some stream ∧
      (w.removed = false → s.channels w.process = some w.stream) ∧
      stream.log = w.seen ++ later ∧ w.scrollback <:+ OutputEvent.sinceClear w.seen ∧
      w.received.filterMap id ++ w.feed.unread = OutputEvent.chunks later := by
  obtain ⟨⟨stream, hstream, hfollows⟩, hchannel⟩ :=
    (Terminals.sound_of_reachable h).viewer viewer w hw
  obtain ⟨later, hlog, hlive⟩ := hfollows.live
  exact ⟨stream, later, hstream, hchannel, hlog, hfollows.replay, hlive hkeeps⟩

def relaunchedTerminal : List TerminalEvent :=
  [.open 1 0, .record 0 [65] [] 0, .attach 1 0, .open 1 1, .clear 1, .record 0 [66] [] 0,
    .recv 0, .record 1 [67] [] 0]

theorem attach_exact_relaunched :
    ∃ s w stream later, terminalMachine.Reachable s ∧ s.viewers 0 = some w ∧
      s.streams w.stream = some stream ∧ stream.log = w.seen ++ later ∧
      w.scrollback = [65] ∧ OutputEvent.chunks later = [[66], [67]] := by
  obtain ⟨s, hs, w, hw, hkeeps, hscrollback, hread⟩ :=
    Machine.exists_reachable_of_run (M := terminalMachine) rfl relaunchedTerminal
      (fun s => ∃ w ∈ s.viewers 0, ¬ w.Lags ∧ w.scrollback = [65] ∧
        w.received.filterMap id ++ w.feed.unread = [[66], [67]]) (by decide)
  obtain ⟨stream, later, hstream, -, hlog, -, hlive⟩ := attach_exact hs hw hkeeps
  exact ⟨s, w, stream, later, hs, hw, hstream, hlog, hscrollback, hlive ▸ hread⟩

end Soloist
