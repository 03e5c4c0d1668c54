import Mathlib.Tactic.Common

/-! A subscriber's end of a bounded broadcast channel. Once the channel is full, what is published
pushes out the oldest event the subscriber has not read, and its next read reports the gap. -/

structure Feed (α : Type*) where
  unread : List α
  lagged : Bool
  deriving DecidableEq, Repr

open List

namespace Feed
variable {α σ : Type*}

/-- A subscription sees nothing published before it. -/
def empty : Feed α := ⟨[], false⟩

def lost (capacity : ℕ) (f : Feed α) : Option α :=
  if f.unread.length < capacity then none else f.unread.head?

def publish (capacity : ℕ) (f : Feed α) (e : α) : Feed α :=
  if f.unread.length < capacity then { f with unread := f.unread ++ [e] }
  else ⟨f.unread.tail ++ [e], true⟩

/-- The next read: a gap is reported once, and reading goes on with the oldest event kept. -/
def recv (f : Feed α) : Option (Option α × Feed α) :=
  if f.lagged then some (none, { f with lagged := false })
  else
    match f.unread with
    | [] => none
    | e :: rest => some (some e, { f with unread := rest })

/-- What a consumer holds once it has read everything. -/
def drain (f : Feed α) (consume : σ → α → σ) (s : σ) : σ := f.unread.foldl consume s

@[simp] theorem drain_empty (consume : σ → α → σ) (s : σ) : (empty : Feed α).drain consume s = s :=
  rfl

variable {capacity : ℕ} {f : Feed α} {x : α}

theorem unread_publish_of_lost (h : f.lost capacity = some x) (e : α) :
    ∃ rest, f.unread = x :: rest ∧ (f.publish capacity e).unread = rest ++ [e] := by
  unfold lost at h
  split_ifs at h with hroom
  obtain ⟨rest, hrest⟩ : ∃ rest, f.unread = x :: rest := by
    cases hf : f.unread with
    | nil => simp [hf] at h
    | cons y rest =>
      rw [hf, head?_cons, Option.some.injEq] at h
      exact ⟨rest, by rw [h]⟩
  refine ⟨rest, hrest, ?_⟩
  rw [publish, if_neg hroom, hrest, tail_cons]

theorem unread_publish_of_kept (h : f.lost capacity = none) (e : α) :
    (f.publish capacity e).unread = f.unread ++ [e] := by
  unfold lost at h
  unfold publish
  split_ifs at h ⊢ with hroom
  · rfl
  · have hnil : f.unread = [] := by simpa using h
    simp [hnil]

variable {e : α}

theorem mem_publish_self : e ∈ (f.publish capacity e).unread := by
  unfold publish
  split_ifs <;> simp

theorem mem_publish_of_ne (hx : x ∈ f.unread) (hlost : f.lost capacity ≠ some x) :
    x ∈ (f.publish capacity e).unread := by
  cases hl : f.lost capacity with
  | none => simp [unread_publish_of_kept hl, hx]
  | some y =>
    obtain ⟨rest, hrest, hunread⟩ := unread_publish_of_lost hl e
    have hne : x ≠ y := fun h => hlost (h ▸ hl)
    rw [hrest, mem_cons] at hx
    simp [hunread, hx.resolve_left hne]

/-- Publishing adds its event to what the consumer will hold, unless the event pushed out had news
the others do not repeat. -/
theorem drain_publish {consume : σ → α → σ} {s : σ}
    (h : ∀ x rest, f.lost capacity = some x → f.unread = x :: rest →
      (rest ++ [e]).foldl consume s = (rest ++ [e]).foldl consume (consume s x)) :
    (f.publish capacity e).drain consume s = consume (f.drain consume s) e := by
  unfold drain
  cases hlost : f.lost capacity with
  | none => rw [unread_publish_of_kept hlost, foldl_append, foldl_cons, foldl_nil]
  | some x =>
    obtain ⟨rest, hrest, hunread⟩ := unread_publish_of_lost hlost e
    rw [hunread, h x rest hlost hrest, hrest, foldl_cons, foldl_append, foldl_cons,
      foldl_nil]

/-- What one read does: it reports a gap and leaves the events, or takes the oldest. -/
theorem recv_eq_some {g : Feed α} {r : Option α} (h : f.recv = some (r, g)) :
    (r = none ∧ g.unread = f.unread) ∨ ∃ e, r = some e ∧ f.unread = e :: g.unread := by
  unfold recv at h
  split_ifs at h with hlag
  · cases h
    exact .inl ⟨rfl, rfl⟩
  · cases hf : f.unread with
    | nil => simp [hf] at h
    | cons e rest =>
      rw [hf] at h
      cases h
      exact .inr ⟨e, rfl, rfl⟩

theorem recv_eq_none (h : f.recv = none) : f.unread = [] ∧ f.lagged = false := by
  unfold recv at h
  split_ifs at h with hlag
  cases hf : f.unread with
  | nil => exact ⟨rfl, by simpa using hlag⟩
  | cons e rest =>
    rw [hf] at h
    cases h

/-- A gap is the next thing that is read. -/
theorem recv_of_lagged (h : f.lagged = true) :
    f.recv = some (none, { f with lagged := false }) := if_pos h

/-- What is unread stays so until it is read, or a gap is reported. -/
theorem mem_publish_or_lagged (hx : x ∈ f.unread) :
    x ∈ (f.publish capacity e).unread ∨ (f.publish capacity e).lagged = true := by
  unfold publish
  split_ifs with hroom
  · exact .inl (mem_append_left _ hx)
  · exact .inr rfl

theorem lagged_publish (h : f.lagged = true) : (f.publish capacity e).lagged = true := by
  unfold publish
  split_ifs with hroom
  · exact h
  · rfl

end Feed
