import Soloist.Closure
import Soloist.Dict
import Soloist.Ids

/-! Agent spawn lineage: which agent spawned which. An edge outlives its parent, and is reclaimed
once no live process descends from it. -/
namespace Soloist

abbrev AgentLineage := Dict ProcessId ProcessId

namespace AgentLineage

def record (l : AgentLineage) (child parent : ProcessId) : AgentLineage :=
  AList.insert child parent l

def parentOf (l : AgentLineage) (child : ProcessId) : Option ProcessId := AList.lookup child l

def isEmpty (l : AgentLineage) : Bool := l.entries.isEmpty

def needed (l : AgentLineage) (live : List ProcessId) : List ProcessId :=
  Closure.close l.parentOf (live.length + l.entries.length) live live

/-- The oldest recorded ancestor, or the first one met again. -/
def rootOf (l : AgentLineage) (process : ProcessId) : ProcessId :=
  (Closure.follow l.parentOf (l.entries.length + 1) [] process).getD process

/-- Keeps the edges of live agents and of the dead ancestors that connect them. -/
def retainLive (l : AgentLineage) (live : List ProcessId) : AgentLineage :=
  l.retain fun child => child ∈ l.needed live

variable {l : AgentLineage} {live : List ProcessId} {child parent : ProcessId}

def Descends (l : AgentLineage) : ProcessId → ProcessId → Prop := Closure.Leads l.parentOf

theorem parentOf_mem_values (child parent : ProcessId) (h : l.parentOf child = some parent) :
    parent ∈ l.values :=
  List.mem_map.mpr ⟨⟨child, parent⟩, AList.mem_lookup_iff.mp h, rfl⟩

theorem mem_needed : child ∈ l.needed live ↔ ∃ p ∈ live, l.Descends p child := by
  apply Closure.mem_close parentOf_mem_values
  · intro a ha
    exact .inl ha
  · intro a ha
    exact ha
  · have hmissing : Closure.missing l.values live ≤ l.values.length := List.countP_le_length
    have hlength : l.values.length = l.entries.length := List.length_map _
    omega

theorem parentOf_retainLive :
    (l.retainLive live).parentOf child =
      if child ∈ l.needed live then l.parentOf child else none := by
  unfold retainLive parentOf
  rw [Dict.lookup_retain]
  simp only [decide_eq_true_eq]

theorem parentOf_record (other : ProcessId) :
    (l.record child parent).parentOf other =
      if other = child then some parent else l.parentOf other :=
  Dict.lookup_insert l child other parent

theorem parentOf_retainLive_of_mem (h : child ∈ live) :
    (l.retainLive live).parentOf child = l.parentOf child := by
  rw [parentOf_retainLive, if_pos (mem_needed.mpr ⟨child, h, Closure.leads_refl child⟩)]

theorem follow_root {fuel : ℕ} (hfuel : l.entries.length < fuel) (process : ProcessId) :
    Closure.follow l.parentOf fuel [] process = some (l.rootOf process) := by
  have hsources : ∀ a b, l.parentOf a = some b → a ∈ l.keys := by
    intro a b hb
    have hsome : (AList.lookup a l).isSome = true := Option.isSome_of_eq_some hb
    exact AList.mem_keys.mpr (AList.lookup_isSome.mp hsome)
  have hlength : l.keys.length = l.entries.length := List.length_map _
  have hmissing : Closure.missing l.keys [] ≤ l.keys.length := List.countP_le_length
  have hends : (Closure.follow l.parentOf (l.entries.length + 1) [] process).isSome = true :=
    Closure.follow_isSome hsources (by omega)
  obtain ⟨root, hroot⟩ := Option.isSome_iff_exists.mp hends
  obtain ⟨more, rfl⟩ := Nat.exists_eq_add_of_lt hfuel
  have hmore := Closure.follow_add hroot more
  have hrootOf : l.rootOf process = root := by
    unfold rootOf
    rw [hroot]
    rfl
  rw [hrootOf, ← hmore]
  congr 1
  omega

variable {p : ProcessId}

/-- The ancestors of a live process keep their edges. -/
theorem parentOf_retainLive_of_descends (hp : p ∈ live) (h : l.Descends p child) :
    (l.retainLive live).parentOf child = l.parentOf child := by
  rw [parentOf_retainLive, if_pos (mem_needed.mpr ⟨p, hp, h⟩)]

theorem rootOf_retainLive (hp : p ∈ live) : (l.retainLive live).rootOf p = l.rootOf p := by
  -- both walks with fuel enough for either
  obtain ⟨fuel, hkeptFuel, hwholeFuel⟩ :
      ∃ fuel, (l.retainLive live).entries.length < fuel ∧ l.entries.length < fuel :=
    ⟨(l.retainLive live).entries.length + l.entries.length + 1, by omega, by omega⟩
  have hkept := follow_root hkeptFuel p
  have hwhole := follow_root hwholeFuel p
  rw [Closure.follow_congr fun b hb => parentOf_retainLive_of_descends hp hb] at hkept
  exact Option.some.inj (hkept.symm.trans hwhole)

/-- The sweep of `retainLive` and the walk of `rootOf` come to their ends, the walk with any more
fuel at the same root; a live process has the parent and the root it had; and every edge left is of
a live process or of an ancestor of one. -/
theorem retainLive_keeps_roots (l : AgentLineage) (live : List ProcessId) :
    Closure.close? l.parentOf (live.length + l.entries.length) live live = some (l.needed live) ∧
    (∀ p fuel, l.entries.length < fuel →
      Closure.follow l.parentOf fuel [] p = some (l.rootOf p)) ∧
    (∀ p ∈ live, (l.retainLive live).parentOf p = l.parentOf p ∧
      (l.retainLive live).rootOf p = l.rootOf p) ∧
    ∀ child parent, (l.retainLive live).parentOf child = some parent →
      l.parentOf child = some parent ∧ ∃ p ∈ live, l.Descends p child := by
  refine ⟨?_, fun p fuel hfuel => follow_root hfuel p, fun p hp => ?_, fun child parent h => ?_⟩
  · have hmissing : Closure.missing l.values live ≤ l.values.length := List.countP_le_length
    have hlength : l.values.length = l.entries.length := List.length_map _
    exact Closure.close?_eq_some parentOf_mem_values (by omega)
  · exact ⟨parentOf_retainLive_of_mem hp, rootOf_retainLive hp⟩
  · rw [parentOf_retainLive] at h
    obtain ⟨hneeded, hparent⟩ := Option.ite_none_right_eq_some.mp h
    exact ⟨hparent, mem_needed.mp hneeded⟩

end AgentLineage

end Soloist
