import Mathlib.Data.List.Perm.Basic
import Mathlib.Data.String.Basic
import Soloist.Supervisor.TrustedSpec

/-! What a trust variant identifies. The hasher is fed length-prefixed fields, so the bytes fed for
a command can be read back, and only a collision of the digest could confuse two commands. -/
open List

namespace Soloist

/-- The low digits of a number in base `b` determine its residue. -/
theorem mod_pow_eq_of_digits {b m n : ℕ} (k : ℕ) (h : ∀ i < k, m / b ^ i % b = n / b ^ i % b) :
    m % b ^ k = n % b ^ k := by
  induction k with
  | zero => rw [Nat.pow_zero, Nat.mod_one, Nat.mod_one]
  | succ k ih =>
    have hlow := ih fun i hi => h i (by omega)
    have hdigit := h k (by omega)
    rw [Nat.mod_pow_succ, Nat.mod_pow_succ, hlow, hdigit]

theorem leBytes_injective {m n : UInt64} (h : Hasher.leBytes m = Hasher.leBytes n) : m = n := by
  have hdigit : ∀ i < 8, m.toNat / 256 ^ i % 256 = n.toNat / 256 ^ i % 256 := by
    intro i hi
    have hbyte := congrArg (fun bytes => bytes[i]?.map UInt8.toNat) h
    simpa [Hasher.leBytes, hi] using hbyte
  have hmod := mod_pow_eq_of_digits 8 hdigit
  have hm := m.toNat_lt
  have hn := n.toNat_lt
  apply UInt64.toNat_inj.mp
  omega

@[simp] theorem length_leBytes (n : UInt64) : (Hasher.leBytes n).length = 8 := by
  simp [Hasher.leBytes]

/-- What one call of `field` adds to the input. -/
def frame (bytes : List UInt8) : List UInt8 :=
  Hasher.leBytes (UInt64.ofNat bytes.length) ++ bytes

theorem Hasher.input_field (h : Hasher) (bytes : List UInt8) :
    (h.field bytes).input = h.input ++ frame bytes := by
  simp [Hasher.field, frame, append_assoc]

/-- A length below the width of its prefix is read back from the prefix. -/
theorem ofNat_inj_of_lt {m n : ℕ} (hm : m < 2 ^ 64) (hn : n < 2 ^ 64)
    (h : UInt64.ofNat m = UInt64.ofNat n) : m = n := by
  have hnat := congrArg UInt64.toNat h
  rw [UInt64.toNat_ofNat', UInt64.toNat_ofNat'] at hnat
  omega

/-- The length prefix separates a field from every possible rest of the input. -/
theorem frame_append_inj {x y r s : List UInt8} (hx : x.length < 2 ^ 64) (hy : y.length < 2 ^ 64)
    (h : frame x ++ r = frame y ++ s) : x = y ∧ r = s := by
  unfold frame at h
  rw [append_assoc, append_assoc] at h
  obtain ⟨hwidth, hrest⟩ := append_inj h (by simp)
  have hlen : x.length = y.length := ofNat_inj_of_lt hx hy (leBytes_injective hwidth)
  exact append_inj hrest hlen

theorem bytes_injective {s t : String} (h : ProcessSpec.bytes s = ProcessSpec.bytes t) : s = t := by
  have hdata : s.toUTF8.data = t.toUTF8.data := Array.toList_inj.mp h
  exact String.toByteArray_inj.mp (ByteArray.ext hdata)

namespace ProcessSpec

def entryBytes (entry : String × String) : List UInt8 :=
  frame (bytes entry.1) ++ frame (bytes entry.2)

/-- The bytes the working directory adds: a tag, and the directory behind it when there is one. -/
def dirBytes : Option String → List UInt8
  | some dir => frame [1] ++ frame (bytes dir)
  | none => frame [0]

/-- Every byte `variant_hash` feeds the hasher. -/
def preimage (spec : ProcessSpec) : List UInt8 :=
  frame (bytes spec.command) ++ (dirBytes spec.workingDir ++
    (frame (Hasher.leBytes (UInt64.ofNat spec.env.length)) ++ spec.env.flatMap entryBytes))

theorem input_foldl_env (env : Env) (h : Hasher) :
    (env.foldl (fun h entry => (h.field (bytes entry.1)).field (bytes entry.2)) h).input =
      h.input ++ env.flatMap entryBytes := by
  induction env generalizing h with
  | nil => simp
  | cons entry rest ih =>
    rw [foldl_cons, ih, Hasher.input_field, Hasher.input_field, flatMap_cons]
    simp [entryBytes, append_assoc]

theorem variantHash_eq [Sha256] (spec : ProcessSpec) :
    spec.variantHash = Sha256.digest spec.preimage := by
  unfold variantHash Hasher.finish
  dsimp only
  rw [input_foldl_env, Hasher.input_field]
  unfold preimage dirBytes
  cases spec.workingDir with
  | none => simp [Hasher.input_field, Hasher.new]
  | some dir => simp [Hasher.input_field, Hasher.new]

/-- No allocation exceeds `isize::MAX` bytes. -/
def Stored (s : String) : Prop := (bytes s).length < 2 ^ 63

/-- A spec as memory can hold it: its texts and its environment are no larger than an allocation,
and the environment is a map in key order. -/
structure InMemory (spec : ProcessSpec) : Prop where
  command : Stored spec.command
  workingDir : ∀ dir ∈ spec.workingDir, Stored dir
  count : spec.env.length < 2 ^ 63
  entries : ∀ entry ∈ spec.env, Stored entry.1 ∧ Stored entry.2
  sorted : spec.env.Pairwise fun a b => a.1 < b.1

/-- The same command line, working directory text and environment. -/
structure SameVariant (a b : ProcessSpec) : Prop where
  command : a.command = b.command
  workingDir : a.workingDir = b.workingDir
  env : ∀ entry, entry ∈ a.env ↔ entry ∈ b.env

theorem Stored.lt {s : String} (h : Stored s) : (bytes s).length < 2 ^ 64 := by
  unfold Stored at h
  omega

theorem dirBytes_append_inj {d e : Option String} {r s : List UInt8} (hd : ∀ x ∈ d, Stored x)
    (he : ∀ x ∈ e, Stored x) (h : dirBytes d ++ r = dirBytes e ++ s) : d = e ∧ r = s := by
  cases d with
  | none =>
    cases e with
    | none => exact ⟨rfl, append_cancel_left h⟩
    | some y =>
      unfold dirBytes at h
      rw [append_assoc] at h
      obtain ⟨htag, -⟩ := frame_append_inj (by simp) (by simp) h
      cases htag
  | some x =>
    cases e with
    | none =>
      unfold dirBytes at h
      rw [append_assoc] at h
      obtain ⟨htag, -⟩ := frame_append_inj (by simp) (by simp) h
      cases htag
    | some y =>
      unfold dirBytes at h
      rw [append_assoc, append_assoc] at h
      have hdir := append_cancel_left h
      obtain ⟨hxy, hrest⟩ := frame_append_inj (hd x rfl).lt (he y rfl).lt hdir
      rw [bytes_injective hxy]
      exact ⟨rfl, hrest⟩

/-- The count in front of the entries says how many to read. -/
theorem entries_inj {a b : Env} (hlen : a.length = b.length)
    (ha : ∀ entry ∈ a, Stored entry.1 ∧ Stored entry.2)
    (hb : ∀ entry ∈ b, Stored entry.1 ∧ Stored entry.2)
    (h : a.flatMap entryBytes = b.flatMap entryBytes) : a = b := by
  induction a generalizing b with
  | nil =>
    rw [length_nil] at hlen
    exact (eq_nil_of_length_eq_zero hlen.symm).symm
  | cons x rest ih =>
    cases b with
    | nil => cases hlen
    | cons y rest' =>
      obtain ⟨hxkey, hxvalue⟩ := ha x (.head _)
      obtain ⟨hykey, hyvalue⟩ := hb y (.head _)
      simp only [flatMap_cons, entryBytes, append_assoc] at h
      obtain ⟨hkey, h⟩ := frame_append_inj hxkey.lt hykey.lt h
      obtain ⟨hvalue, h⟩ := frame_append_inj hxvalue.lt hyvalue.lt h
      have hrest : rest = rest' := by
        apply ih (Nat.succ.inj hlen) _ _ h
        · exact fun entry hentry => ha entry (.tail _ hentry)
        · exact fun entry hentry => hb entry (.tail _ hentry)
      rw [hrest, Prod.ext (bytes_injective hkey) (bytes_injective hvalue)]

/-- A map in key order is determined by its entries. -/
theorem env_eq_of_mem {a b : Env} (ha : a.Pairwise fun x y => x.1 < y.1)
    (hb : b.Pairwise fun x y => x.1 < y.1) (h : ∀ entry, entry ∈ a ↔ entry ∈ b) : a = b := by
  have hnodup : ∀ {env : Env}, env.Pairwise (fun x y => x.1 < y.1) → env.Nodup := by
    intro env henv
    apply henv.imp
    intro x y hlt heq
    rw [heq] at hlt
    exact lt_irrefl _ hlt
  have hperm : a.Perm b := (perm_ext_iff_of_nodup (hnodup ha) (hnodup hb)).mpr h
  apply hperm.eq_of_pairwise _ ha hb
  intro x y _ _ hxy hyx
  exact absurd (hxy.trans hyx) (lt_irrefl _)

theorem preimage_eq_iff {a b : ProcessSpec} (ha : a.InMemory) (hb : b.InMemory) :
    a.preimage = b.preimage ↔ a.SameVariant b := by
  constructor
  · intro h
    unfold preimage at h
    obtain ⟨hcommand, h⟩ := frame_append_inj ha.command.lt hb.command.lt h
    obtain ⟨hdir, h⟩ := dirBytes_append_inj ha.workingDir hb.workingDir h
    obtain ⟨hcount, h⟩ := frame_append_inj (by simp) (by simp) h
    have halen := ha.count
    have hblen := hb.count
    have hlen : a.env.length = b.env.length :=
      ofNat_inj_of_lt (by omega) (by omega) (leBytes_injective hcount)
    have henv : a.env = b.env := entries_inj hlen ha.entries hb.entries h
    exact ⟨bytes_injective hcommand, hdir, fun entry => by rw [henv]⟩
  · intro h
    have henv : a.env = b.env := env_eq_of_mem ha.sorted hb.sorted h.env
    unfold preimage
    rw [h.command, h.workingDir, henv]

/-- The bytes fed to the hasher determine the command line, the working directory and the
environment, and nothing else. So where the digest does not collide on them, trusting one command
makes no other command trusted. -/
theorem variant_identifies [Sha256] (a b : ProcessSpec) (ha : a.InMemory) (hb : b.InMemory) :
    (a.preimage = b.preimage ↔ a.SameVariant b) ∧
      ((Sha256.digest a.preimage = Sha256.digest b.preimage → a.preimage = b.preimage) →
        ∀ (s t : Supervisor) (project : ProjectId),
          s.step (.setTrusted project a.variantHash true) = some t →
          t.trust project b.variantHash = true → s.trust project b.variantHash = false →
          a.SameVariant b) := by
  refine ⟨preimage_eq_iff ha hb, ?_⟩
  intro hfree s t project hstep htrusted huntrusted
  cases hstep
  by_cases hsame : b.variantHash = a.variantHash
  · rw [variantHash_eq, variantHash_eq] at hsame
    exact (preimage_eq_iff ha hb).mp (hfree hsame.symm)
  · simp only [hsame, and_false, if_false] at htrusted
    rw [huntrusted] at htrusted
    cases htrusted

/-- `npm start`, started with its project. -/
def autoStartSpec : ProcessSpec := ⟨"npm start", none, true, false, [], []⟩

/-- Trusting a command trusts it with another `auto_start` too, and not with another command line. -/
theorem variant_identifies_edited :
    letI := editSha
    ∃ t, Supervisor.init.step (.setTrusted 1 startSpec.variantHash true) = some t ∧
      t.trust 1 autoStartSpec.variantHash = true ∧ t.trust 1 devSpec.variantHash = false ∧
      startSpec.SameVariant autoStartSpec := by
  let _ := editSha
  have hstored : ∀ autoStart, (ProcessSpec.mk "npm start" none autoStart false [] []).InMemory := by
    intro autoStart
    exact ⟨show (bytes "npm start").length < 2 ^ 63 by decide, by simp, by simp, by simp,
      List.Pairwise.nil⟩
  have hidentifies :=
    (variant_identifies startSpec autoStartSpec (hstored false) (hstored true)).2 fun _ => rfl
  refine ⟨_, rfl, ?trusted, by decide, hidentifies .init _ 1 rfl ?trusted rfl⟩
  decide

end ProcessSpec
end Soloist
