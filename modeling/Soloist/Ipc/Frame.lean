import Mathlib.Algebra.Group.Nat.Defs
import Soloist.Source
import Soloist.Text

/-! Length-prefixed JSON framing over a byte stream: a frame is a big-endian byte count and that
many bytes of JSON. -/
open List

namespace Soloist

def maxFrame : ℕ := 8 * 1024 * 1024

/-- The kinds of stream error the reader tells apart. -/
inductive ErrorKind
  | unexpectedEof
  | other
  deriving DecidableEq, Repr

inductive FrameError (J : Type*)
  | io (kind : ErrorKind)
  | tooLarge
  | codec (error : J)
  deriving DecidableEq, Repr

/-- The JSON serializer of a message type, with its error. -/
class SerdeJson (T : Type*) (J : outParam Type*) where
  toVec : T → Except J Bytes
  fromSlice : Bytes → Except J T

/-- `u32::to_be_bytes`. -/
def toBeBytes (n : ℕ) : Bytes := [n / 2 ^ 24, n / 2 ^ 16, n / 2 ^ 8, n].map UInt8.ofNat

/-- `u32::from_be_bytes`. -/
def fromBeBytes (bytes : Bytes) : ℕ := bytes.foldl (fun n b => n * 256 + b.toNat) 0

/-- The stream a writer appends to, which may take only so many bytes more, or not be flushed. -/
structure Writer where
  written : Bytes
  fails : Option (ℕ × ErrorKind)
  unflushed : Option ErrorKind
  deriving DecidableEq, Repr

namespace Writer

def new : Writer := ⟨[], none, none⟩

def writeAll (w : Writer) (data : Bytes) : Except ErrorKind Unit × Writer :=
  match w.fails with
  | none => (.ok (), { w with written := w.written ++ data })
  | some (room, kind) =>
    if data.length ≤ room then
      (.ok (), { w with written := w.written ++ data, fails := some (room - data.length, kind) })
    else (.error kind, { w with written := w.written ++ data.take room, fails := some (0, kind) })

def flush (w : Writer) : Except ErrorKind Unit :=
  match w.unflushed with
  | none => .ok ()
  | some kind => .error kind

end Writer

/-- The stream a reader takes from, and the sizes of the body buffers it has asked for. -/
structure Reader where
  source : Source UInt8 ErrorKind
  buffers : List ℕ
  deriving DecidableEq, Repr

section Frame
variable {T J : Type*} [SerdeJson T J]

def writeFrame (w : Writer) (message : T) : Except (FrameError J) Unit × Writer :=
  match SerdeJson.toVec message with
  | .error e => (.error (.codec e), w)
  | .ok body =>
    -- the length as a `u32`, then the cap
    if 2 ^ 32 ≤ body.length then (.error .tooLarge, w)
    else if maxFrame < body.length then (.error .tooLarge, w)
    else
      match w.writeAll (toBeBytes body.length) with
      | (.error kind, w) => (.error (.io kind), w)
      | (.ok (), w) =>
        match w.writeAll body with
        | (.error kind, w) => (.error (.io kind), w)
        | (.ok (), w) =>
          match w.flush with
          | .error kind => (.error (.io kind), w)
          | .ok () => (.ok (), w)

def readFrame (T : Type*) {J : Type*} [SerdeJson T J] (r : Reader) :
    Except (FrameError J) (Option T) × Reader :=
  match r.source.readExact .unexpectedEof 4 with
  | (.error .unexpectedEof, source) => (.ok none, { r with source })
  | (.error kind, source) => (.error (.io kind), { r with source })
  | (.ok lenBytes, source) =>
    let len := fromBeBytes lenBytes
    if maxFrame < len then (.error .tooLarge, { r with source })
    else
      match source.readExact .unexpectedEof len with
      | (.error kind, source) => (.error (.io kind), ⟨source, r.buffers ++ [len]⟩)
      | (.ok body, source) =>
        match SerdeJson.fromSlice body with
        | .error e => (.error (.codec e), ⟨source, r.buffers ++ [len]⟩)
        | .ok message => (.ok (some message), ⟨source, r.buffers ++ [len]⟩)

def writeFrames (w : Writer) : List T → Except (FrameError J) Unit × Writer
  | [] => (.ok (), w)
  | message :: rest =>
    match writeFrame w message with
    | (.error e, w) => (.error e, w)
    | (.ok (), w) => writeFrames w rest

def readFrames (T : Type*) {J : Type*} [SerdeJson T J] :
    ℕ → Reader → List (Except (FrameError J) (Option T)) × Reader
  | 0, r => ([], r)
  | n + 1, r =>
    let read := readFrame T r
    let later := readFrames T n read.2
    (read.1 :: later.1, later.2)

def Fits (message : T) : Prop :=
  ∃ body, SerdeJson.toVec message = .ok body ∧ body.length ≤ maxFrame

/-- The source ends or fails inside a frame: behind the first byte of its prefix and before the last
byte of its body. -/
def InsideFrame (s : Source UInt8 ErrorKind) : Prop :=
  s.lead ≠ [] ∧ (s.lead.length < 4 ∨ s.lead.length < 4 + fromBeBytes (s.lead.take 4))

/-- The source ends inside a length prefix, or fails there with the error of an end. -/
def TornPrefix (s : Source UInt8 ErrorKind) : Prop :=
  s.lead ≠ [] ∧ s.lead.length < 4 ∧ s.stop.getD .unexpectedEof = .unexpectedEof

structure FaithfulFraming (T : Type*) {J : Type*} [SerdeJson T J] (s : Source UInt8 ErrorKind) :
    Prop where
  /-- Messages that fit are written, and a source that carries them gives them back. -/
  readsBack : ∀ ms : List T, (∀ m ∈ ms, Fits m) → (writeFrames .new ms).1 = .ok () ∧
    (s.lead = (writeFrames .new ms).2.written → s.stop = none → ∀ k,
      (readFrames T (ms.length + k) ⟨s, []⟩).1 =
        ms.map (fun m => .ok (some m)) ++ List.replicate k (.ok none))
  clean : (readFrame T ⟨s, []⟩).1 = .ok none → s.lead = []
  torn : InsideFrame s → ∃ e, (readFrame T ⟨s, []⟩).1 = .error e
  bounded : ∀ n, ∀ size ∈ (readFrames T n ⟨s, []⟩).2.buffers, size ≤ maxFrame

theorem length_toBeBytes (n : ℕ) : (toBeBytes n).length = 4 := rfl

theorem fromBeBytes_toBeBytes {n : ℕ} (h : n < 2 ^ 32) : fromBeBytes (toBeBytes n) = n := by
  simp only [toBeBytes, fromBeBytes, map_cons, map_nil, foldl_cons, foldl_nil,
    UInt8.toNat_ofNat']
  omega

def wireFrame (body : Bytes) : Bytes := toBeBytes body.length ++ body

variable {w : Writer} {message : T} {body : Bytes}

theorem writeFrame_of_fits (hbody : SerdeJson.toVec message = .ok body)
    (hfits : body.length ≤ maxFrame) (hfails : w.fails = none) (hflushes : w.unflushed = none) :
    writeFrame w message = (.ok (), { w with written := w.written ++ wireFrame body }) := by
  have hu32 : ¬ 2 ^ 32 ≤ body.length := by
    unfold maxFrame at hfits
    omega
  have hcap : ¬ maxFrame < body.length := Nat.not_lt_of_le hfits
  obtain ⟨written, fails, unflushed⟩ := w
  subst hfails hflushes
  simp only [writeFrame, hbody, if_neg hu32, if_neg hcap, Writer.writeAll, Writer.flush, wireFrame,
    append_assoc]

variable {ms : List T}

theorem writeFrames_of_fits (h : ∀ m ∈ ms, Fits m) (hfails : w.fails = none)
    (hflushes : w.unflushed = none) :
    ∃ bodies : List Bytes, List.Forall₂ (fun m body => SerdeJson.toVec m = .ok body ∧
        body.length ≤ maxFrame) ms bodies ∧
      writeFrames w ms =
        (.ok (), { w with written := w.written ++ (bodies.map wireFrame).flatten }) := by
  induction ms generalizing w with
  | nil =>
    refine ⟨[], .nil, ?_⟩
    simp [writeFrames]
  | cons m ms ih =>
    obtain ⟨body, hbody, hfits⟩ := h m (.head _)
    have hwritten := writeFrame_of_fits hbody hfits hfails hflushes
    obtain ⟨bodies, hbodies, hrest⟩ := ih (fun m' hm' => h m' (.tail _ hm'))
      (w := { w with written := w.written ++ wireFrame body }) hfails hflushes
    refine ⟨body :: bodies, .cons ⟨hbody, hfits⟩ hbodies, ?_⟩
    simp only [writeFrames, hwritten, hrest, map_cons, flatten_cons, append_assoc]

inductive Reads (T : Type*) {J : Type*} [SerdeJson T J] (r : Reader) :
    Except (FrameError J) (Option T) → Reader → Prop
  | ended (source : Source UInt8 ErrorKind) (hlead : r.source.lead.length < 4)
      (hstop : r.source.stop.getD .unexpectedEof = .unexpectedEof)
      (hended : r.source.stop = none → source = .ended) :
    Reads T r (.ok none) { r with source }
  | failed (source : Source UInt8 ErrorKind) (kind : ErrorKind)
      (hlead : r.source.lead.length < 4)
      (hstop : r.source.stop.getD .unexpectedEof ≠ .unexpectedEof) :
    Reads T r (.error (.io kind)) { r with source }
  | tooLarge (source : Source UInt8 ErrorKind) (hcount : 4 ≤ r.source.lead.length)
      (hcap : maxFrame < fromBeBytes (r.source.lead.take 4)) :
    Reads T r (.error .tooLarge) { r with source }
  | cut (source : Source UInt8 ErrorKind) (kind : ErrorKind) (len : ℕ) (hlen : len ≤ maxFrame)
      (hcount : 4 ≤ r.source.lead.length) (heq : len = fromBeBytes (r.source.lead.take 4))
      (hbody : r.source.lead.length < 4 + len) :
    Reads T r (.error (.io kind)) ⟨source, r.buffers ++ [len]⟩
  | whole (source : Source UInt8 ErrorKind) (len : ℕ) (hlen : len ≤ maxFrame)
      (hcount : 4 ≤ r.source.lead.length) (heq : len = fromBeBytes (r.source.lead.take 4))
      (hbody : 4 + len ≤ r.source.lead.length)
      (hlead : source.lead = r.source.lead.drop (4 + len)) (hstop : source.stop = r.source.stop) :
    Reads T r
      (match SerdeJson.fromSlice ((r.source.lead.drop 4).take len) with
        | .error e => .error (.codec e)
        | .ok message => .ok (some message))
      ⟨source, r.buffers ++ [len]⟩

theorem reads_readFrame (r : Reader) : Reads T r (readFrame T r).1 (readFrame T r).2 := by
  unfold readFrame
  split
  next source heq =>
    obtain ⟨hlead, hstop, hended⟩ := Source.readExact_eq_error heq
    exact .ended source hlead hstop.symm hended
  next kind source hkind heq =>
    obtain ⟨hlead, rfl, -⟩ := Source.readExact_eq_error heq
    exact .failed source _ hlead hkind
  next lenBytes source heq =>
    obtain ⟨hcount, rfl, hlead, hstop⟩ := Source.readExact_eq_ok heq
    dsimp only
    split_ifs with hcap
    · exact .tooLarge source hcount hcap
    have hlen := Nat.le_of_not_lt hcap
    split
    next kind later hbody =>
      obtain ⟨hshort, -, -⟩ := Source.readExact_eq_error hbody
      rw [hlead, length_drop] at hshort
      exact .cut later kind _ hlen hcount rfl (by omega)
    next body later hbody =>
      obtain ⟨hlong, rfl, hlead', hstop'⟩ := Source.readExact_eq_ok hbody
      rw [hlead, length_drop] at hlong
      rw [hlead]
      have hread : Reads T r _ ⟨later, _⟩ := .whole later _ hlen hcount rfl (by omega)
        (by rw [hlead', hlead, drop_drop]) (hstop'.trans hstop)
      split
      next e hslice =>
        rw [hslice] at hread
        exact hread
      next message hslice =>
        rw [hslice] at hread
        exact hread

variable {r : Reader}

/-- A read that reports an end met one, before a whole prefix. -/
theorem ended_of_readFrame (h : (readFrame T r).1 = .ok none) :
    r.source.lead.length < 4 ∧ r.source.stop.getD .unexpectedEof = .unexpectedEof := by
  have hread := reads_readFrame (T := T) r
  generalize (readFrame T r).2 = r' at hread
  rw [h] at hread
  generalize hnone : Except.ok none = result at hread
  cases hread with
  | ended source hlead hstop hended => exact ⟨hlead, hstop⟩
  | failed | tooLarge | cut => cases hnone
  | whole =>
    split at hnone
    · cases hnone
    · cases hnone

theorem error_of_insideFrame {s : Source UInt8 ErrorKind} (hinside : InsideFrame s)
    (hwhole : ¬ TornPrefix s) : ∃ e, (readFrame T ⟨s, []⟩).1 = .error e := by
  have hread := reads_readFrame (T := T) ⟨s, []⟩
  generalize (readFrame T ⟨s, []⟩).1 = result at hread
  generalize (readFrame T ⟨s, []⟩).2 = r' at hread
  cases hread with
  | ended source hlead hstop hended => exact absurd ⟨hinside.1, hlead, hstop⟩ hwhole
  | failed source kind hlead hstop => exact ⟨_, rfl⟩
  | tooLarge source hcount hcap => exact ⟨_, rfl⟩
  | cut source kind len hlen hcount heq hbody => exact ⟨_, rfl⟩
  | whole source len hlen hcount heq hbody hlead hstop =>
    subst heq
    rcases hinside.2 with hshort | hshort
    · exact absurd hcount (Nat.not_le_of_lt hshort)
    · exact absurd hbody (Nat.not_le_of_lt hshort)

theorem readFrame_wireFrame {rest : Bytes} (hfits : body.length ≤ maxFrame)
    (hslice : SerdeJson.fromSlice body = .ok message)
    (hlead : r.source.lead = wireFrame body ++ rest) :
    (readFrame T r).1 = .ok (some message) ∧ (readFrame T r).2.source.lead = rest ∧
      (readFrame T r).2.source.stop = r.source.stop := by
  have hsmall : body.length < 2 ^ 32 := by
    unfold maxFrame at hfits
    omega
  have hcount : (toBeBytes body.length).length = 4 := length_toBeBytes _
  have hlength : r.source.lead.length = 4 + (body.length + rest.length) := by
    rw [hlead, wireFrame, List.length_append, List.length_append, hcount, Nat.add_assoc]
  have htake : r.source.lead.take 4 = toBeBytes body.length := by
    rw [hlead, wireFrame, append_assoc, take_left' hcount]
  have hdrop : r.source.lead.drop 4 = body ++ rest := by
    rw [hlead, wireFrame, append_assoc, drop_left' hcount]
  have hread := reads_readFrame (T := T) r
  generalize (readFrame T r).1 = result at hread
  generalize (readFrame T r).2 = r' at hread
  cases hread with
  | ended source hshort | failed source kind hshort => omega
  | tooLarge source hlong hcap =>
    rw [htake, fromBeBytes_toBeBytes hsmall] at hcap
    omega
  | cut source kind len hlen hlong heq hshort =>
    rw [htake, fromBeBytes_toBeBytes hsmall] at heq
    omega
  | whole source len hlen hlong heq hbody hlead' hstop =>
    rw [htake, fromBeBytes_toBeBytes hsmall] at heq
    subst heq
    refine ⟨?_, ?_, hstop⟩
    · rw [hdrop, take_left' rfl, hslice]
    · rw [hlead', ← drop_drop, hdrop, drop_left' rfl]

theorem readFrame_ended (hlead : r.source.lead = []) (hstop : r.source.stop = none) :
    (readFrame T r).1 = .ok none ∧ (readFrame T r).2.source = .ended := by
  have hread := reads_readFrame (T := T) r
  generalize (readFrame T r).1 = result at hread
  generalize (readFrame T r).2 = r' at hread
  cases hread with
  | ended source hshort hstop' hended => exact ⟨rfl, hended hstop⟩
  | failed source kind hshort hfailed =>
    rw [hstop] at hfailed
    exact absurd rfl hfailed
  | tooLarge source hcount | cut source kind len hlen hcount | whole source len hlen hcount =>
    rw [hlead] at hcount
    exact absurd hcount (by decide)

theorem readFrames_ended (hlead : r.source.lead = []) (hstop : r.source.stop = none) (k : ℕ) :
    (readFrames T k r).1 = List.replicate k (.ok none) := by
  induction k generalizing r with
  | zero => rfl
  | succ k ih =>
    obtain ⟨hnone, hended⟩ := readFrame_ended (T := T) hlead hstop
    have hrest := ih (r := (readFrame T r).2) (by rw [hended]; rfl) (by rw [hended]; rfl)
    show (readFrame T r).1 :: (readFrames T k (readFrame T r).2).1 = _
    rw [hnone, hrest, replicate_succ]

theorem readFrames_wireFrames {bodies : List Bytes} (hserde : ∀ (m : T) body,
      SerdeJson.toVec m = .ok body → SerdeJson.fromSlice body = .ok m)
    (hbodies : List.Forall₂ (fun m body => SerdeJson.toVec m = .ok body ∧
      body.length ≤ maxFrame) ms bodies)
    (hlead : r.source.lead = (bodies.map wireFrame).flatten) (hstop : r.source.stop = none)
    (k : ℕ) :
    (readFrames T (ms.length + k) r).1 =
      ms.map (fun m => .ok (some m)) ++ List.replicate k (.ok none) := by
  induction hbodies generalizing r with
  | nil =>
    rw [length_nil, Nat.zero_add]
    exact readFrames_ended hlead hstop k
  | @cons m body ms bodies hbody hbodies ih =>
    rw [map_cons, flatten_cons] at hlead
    obtain ⟨hmessage, hrest, hstop'⟩ :=
      readFrame_wireFrame hbody.2 (hserde m body hbody.1) hlead
    have hlater := ih hrest (hstop'.trans hstop)
    rw [length_cons, Nat.add_right_comm]
    show (readFrame T r).1 :: (readFrames T (ms.length + k) (readFrame T r).2).1 = _
    rw [hmessage, hlater, map_cons, cons_append]

theorem buffers_readFrame (h : ∀ size ∈ r.buffers, size ≤ maxFrame) :
    ∀ size ∈ (readFrame T r).2.buffers, size ≤ maxFrame := by
  have hread := reads_readFrame (T := T) r
  generalize (readFrame T r).1 = result at hread
  generalize (readFrame T r).2 = r' at hread
  intro size hsize
  cases hread with
  | ended | failed | tooLarge => exact h size hsize
  | cut source kind len hlen | whole source len hlen =>
    rcases mem_append.mp hsize with hold | hnew
    · exact h size hold
    · rw [mem_singleton.mp hnew]
      exact hlen

theorem buffers_readFrames (h : ∀ size ∈ r.buffers, size ≤ maxFrame) (n : ℕ) :
    ∀ size ∈ (readFrames T n r).2.buffers, size ≤ maxFrame := by
  induction n generalizing r with
  | zero => exact h
  | succ n ih => exact ih (buffers_readFrame h)

end Frame

/-- Framing is a code on every source that does not end inside a length prefix. -/
theorem framing_faithful_iff {T J : Type*} [SerdeJson T J] (hserde : ∀ (m : T) body,
      SerdeJson.toVec m = .ok body → SerdeJson.fromSlice body = .ok m)
    (s : Source UInt8 ErrorKind) : FaithfulFraming T s ↔ ¬ TornPrefix s := by
  constructor
  · intro h htorn
    obtain ⟨hlead, hshort, hstop⟩ := htorn
    obtain ⟨e, he⟩ := h.torn ⟨hlead, .inl hshort⟩
    have hread := reads_readFrame (T := T) ⟨s, []⟩
    generalize (readFrame T ⟨s, []⟩).2 = r' at hread
    rw [he] at hread
    generalize herror : Except.error e = result at hread
    cases hread with
    | ended => cases herror
    | failed source kind hlead' hfailed => exact hfailed hstop
    | tooLarge source hcount | cut source kind len hlen hcount | whole source len hlen hcount =>
      exact Nat.not_le_of_lt hshort hcount
  · intro hwhole
    refine ⟨fun ms hms => ?_, fun hnone => ?_, fun hinside => error_of_insideFrame hinside hwhole,
      fun n => buffers_readFrames (fun size hsize => by cases hsize) n⟩
    · obtain ⟨bodies, hbodies, hwritten⟩ := writeFrames_of_fits hms (w := .new) rfl rfl
      rw [hwritten]
      refine ⟨rfl, fun hlead hstop k => ?_⟩
      exact readFrames_wireFrames hserde hbodies hlead hstop k
    · obtain ⟨hshort, hstop⟩ := ended_of_readFrame hnone
      by_contra hlead
      exact hwhole ⟨hlead, hshort, hstop⟩

@[reducible] def boolJson : SerdeJson Bool String where
  toVec
    | true => .ok [116, 114, 117, 101]
    | false => .ok [102, 97, 108, 115, 101]
  fromSlice body :=
    if body = [116, 114, 117, 101] then .ok true
    else if body = [102, 97, 108, 115, 101] then .ok false
    else .error "expected value"

theorem boolJson_faithful (m : Bool) (body : Bytes) (h : boolJson.toVec m = .ok body) :
    boolJson.fromSlice body = .ok m := by
  cases m <;> cases h <;> rfl

/-- Two messages, cut across both prefixes. -/
def choppedFrames : Source UInt8 ErrorKind :=
  .items 0 [0] (.items 0 [4, 116] (.items 114 [117, 101, 0] (.items 0 [0, 5, 102]
    (.items 97 [108, 115, 101] .ended))))

theorem framing_faithful_chopped :
    letI := boolJson
    (readFrames Bool 4 ⟨choppedFrames, []⟩).1 =
      [.ok (some true), .ok (some false), .ok none, .ok none] := by
  let _ := boolJson
  have hwhole : ¬ TornPrefix choppedFrames := fun h => absurd h.2.1 (by decide)
  have hfaithful := (framing_faithful_iff boolJson_faithful choppedFrames).mpr hwhole
  have hfits : ∀ m ∈ [true, false], Fits m := by
    intro m _
    cases m
    · exact ⟨_, rfl, by decide⟩
    · exact ⟨_, rfl, by decide⟩
  exact (hfaithful.readsBack [true, false] hfits).2 rfl rfl 2

def tornFrame : Source UInt8 ErrorKind := .items 0 [0, 0] .ended

/-- A stream that ends inside a length prefix reads as one that ended before it. -/
theorem torn_prefix_read_as_end :
    letI := boolJson
    tornFrame.lead = (writeFrames .new [true]).2.written.take 3 ∧
      (readFrame Bool ⟨tornFrame, []⟩).1 = .ok none ∧ ¬ FaithfulFraming Bool tornFrame := by
  let _ := boolJson
  refine ⟨rfl, rfl, fun h => ?_⟩
  have hlead := h.clean rfl
  cases hlead

end Soloist
