import Soloist.Notify.Reactor

/-! What is unread belongs to a registered process once everything is consumed, as long as no
departure of a process with something unread is dropped. -/
open List Option Slots

namespace Soloist.Notify.NotificationReactor
variable {s t : NotificationReactor} {id : ProcessId} {event : NoticeEvent} {fault : Bool}

theorem departed_eq_some : event.departed = some id ↔ event = .processRemoved id := by
  cases event <;> simp [NoticeEvent.departed]

theorem clearUnread_eq (s : NotificationReactor) (id : ProcessId) :
    ∃ notices : List NoticeEvent, (∀ event ∈ notices, event.departed = none) ∧
      s.clearUnread id =
        { s with attention := (s.attention.clear id).1, events := s.events ++ notices } := by
  unfold clearUnread AttentionRegistry.clear
  cases s.attention.lookup id with
  | some unread =>
    refine ⟨[.attentionChanged], fun event hevent => ?_, rfl⟩
    rw [mem_singleton.mp hevent]
    rfl
  | none =>
    refine ⟨[], fun event hevent => ?_, ?_⟩
    · cases hevent
    · rw [append_nil]
      rfl

/-- A step after which every process that was tracked still is, and nothing else is unread or on the
way to be. -/
theorem Accounted.mono (hs : s.Accounted)
    (hregistered : ∀ id, s.registered id ≠ none → t.Tracked id)
    (hleaving : ∀ id ∈ s.leaving, t.Tracked id)
    (hevents : s.events ⊆ t.events)
    (hunread : ∀ id, t.attention.lookup id ≠ none →
      s.attention.lookup id ≠ none ∨ s.stage.process = some id)
    (hstage : ∀ id, t.stage.process = some id →
      s.stage.process = some id ∨ s.registered id ≠ none) : t.Accounted := by
  have htracked : ∀ id, s.Tracked id → t.Tracked id := by
    rintro id (hlive | hleave | hevent)
    · exact hregistered id hlive
    · exact hleaving id hleave
    · exact .inr (.inr (hevents hevent))
  constructor
  · intro id hid
    rcases hunread id hid with hwas | hwas
    · exact htracked id (hs.unread id hwas)
    · exact htracked id (hs.alerting id hwas)
  · intro id hid
    rcases hstage id hid with hwas | hlive
    · exact htracked id (hs.alerting id hwas)
    · exact hregistered id hlive

theorem Accounted.within (hs : s.Accounted) (hregistered : t.registered = s.registered)
    (hleaving : t.leaving = s.leaving) (hevents : s.events ⊆ t.events)
    (hunread : ∀ id, t.attention.lookup id ≠ none →
      s.attention.lookup id ≠ none ∨ s.stage.process = some id)
    (hstage : ∀ id, t.stage.process = some id →
      s.stage.process = some id ∨ s.registered id ≠ none) : t.Accounted := by
  refine hs.mono (fun id hlive => ?_) (fun id hleave => ?_) hevents hunread hstage
  · rw [← hregistered] at hlive
    exact .inl hlive
  · rw [← hleaving] at hleave
    exact .inr (.inl hleave)

theorem Accounted.clearUnread (hs : s.Accounted) (id : ProcessId) :
    (s.clearUnread id).Accounted := by
  obtain ⟨notices, -, heq⟩ := clearUnread_eq s id
  rw [heq]
  refine hs.within rfl rfl (subset_append_left _ _) (fun other hother => ?_)
    fun _ h => .inl h
  have hother : (s.attention.clear id).1.lookup other ≠ none := hother
  rw [AttentionRegistry.lookup_clear] at hother
  split_ifs at hother with hsame
  · exact absurd rfl hother
  · exact .inl hother

theorem Accounted.advance (hs : s.Accounted) (hstep : s.advance fault = some t) : t.Accounted := by
  have hself : s.events ⊆ s.events := List.Subset.refl _
  have hkept : ∀ id, s.attention.lookup id ≠ none →
      s.attention.lookup id ≠ none ∨ s.stage.process = some id := fun id h => .inl h
  unfold NotificationReactor.advance at hstep
  split at hstep
  case h_1 => cases hstep
  case h_2 id trigger hstage =>
    cases hstep
    refine hs.within rfl rfl hself hkept fun other hother => ?_
    dsimp only at hother
    split_ifs at hother <;> cases hother
  case h_3 id trigger notifications hstage =>
    split at hstep
    case h_1 view hview =>
      cases hstep
      refine hs.within rfl rfl hself hkept fun other hother => .inr ?_
      cases hother
      rw [hview]
      exact some_ne_none view
    case h_2 =>
      cases hstep
      refine hs.within rfl rfl hself hkept fun other hother => ?_
      cases hother
  case h_4 id trigger notifications view hstage =>
    cases hstep
    refine hs.within rfl rfl hself hkept fun other hother => .inl ?_
    dsimp only at hother
    split_ifs at hother
    · rw [hstage]
      exact hother
    · cases hother
  case h_5 id trigger notifications view hstage =>
    cases hstep
    refine hs.within rfl rfl hself hkept fun other hother => .inl ?_
    rw [hstage]
    exact hother
  case h_6 id trigger notifications view level hstage =>
    split at hstep
    case h_1 notification _ =>
      cases hstep
      refine hs.within rfl rfl hself hkept fun other hother => .inl ?_
      rw [hstage]
      exact hother
    case h_2 =>
      cases hstep
      refine hs.within rfl rfl hself hkept fun other hother => ?_
      cases hother
  case h_7 alert hstage =>
    cases hstep
    have hprocess : s.stage.process = some alert.process := by
      rw [hstage]
      rfl
    unfold deliver
    split
    · refine hs.within rfl rfl hself hkept fun other hother => ?_
      cases hother
    · exact hs.within rfl rfl hself hkept fun other hother => .inl (hprocess.trans hother)
    · exact hs.within rfl rfl (subset_append_left _ _) hkept
        fun other hother => .inl (hprocess.trans hother)
  case h_8 process kind hstage =>
    cases hstep
    refine hs.within rfl rfl (subset_append_left _ _) (fun other hother => ?_)
      fun other hother => ?_
    · have hother : (s.attention.raise process kind).lookup other ≠ none := hother
      rw [AttentionRegistry.lookup_raise] at hother
      split_ifs at hother with hsame
      · right
        rw [hstage, hsame]
        rfl
      · exact .inl hother
    · cases hother

variable {events : List NoticeEvent}

theorem Accounted.recv (hs : s.Accounted) (hidle : s.stage = .idle)
    (hevents : s.events = event :: events) : ({ s with events }.react event).Accounted := by
  have hrest : ∀ id, event ≠ .processRemoved id → s.Tracked id →
      Tracked { s with events } id := by
    rintro id hne (hlive | hleave | hevent)
    · exact .inl hlive
    · exact .inr (.inl hleave)
    · rw [hevents] at hevent
      rcases mem_cons.mp hevent with heq | hevent
      · exact absurd heq.symm hne
      · exact .inr (.inr hevent)
  unfold react
  split
  case h_1 _ id hdeparted =>
    obtain ⟨notices, -, heq⟩ := clearUnread_eq { s with events } id
    rw [heq]
    constructor
    · intro other hother
      have hother : (s.attention.clear id).1.lookup other ≠ none := hother
      rw [AttentionRegistry.lookup_clear] at hother
      split_ifs at hother with hsame
      · exact absurd rfl hother
      · have hne : event ≠ .processRemoved other := by
          rw [departed_eq_some.mp hdeparted]
          exact fun heq => hsame (NoticeEvent.processRemoved.inj heq).symm
        rcases hrest other hne (hs.unread other hother) with hlive | hleave | hevent
        · exact .inl hlive
        · exact .inr (.inl hleave)
        · exact .inr (.inr (mem_append_left _ hevent))
    · intro other hother
      have hother : s.stage.process = some other := hother
      rw [hidle] at hother
      cases hother
  case h_2 id trigger hdeparted hclassified =>
    have hne : ∀ other, event ≠ .processRemoved other := by
      rintro other rfl
      cases hdeparted
    constructor
    · exact fun other hother => hrest other (hne other) (hs.unread other hother)
    · intro other hother
      cases hother
  case h_3 hdeparted hunclassified =>
    have hne : ∀ other, event ≠ .processRemoved other := by
      rintro other rfl
      cases hdeparted
    constructor
    · exact fun other hother => hrest other (hne other) (hs.unread other hother)
    · exact fun other hother => hrest other (hne other) (hs.alerting other hother)

variable {e : NoticeStep}

theorem Accounted.step (hs : s.Accounted) (hretains : s.Retains e) (hstep : s.step e = some t) :
    t.Accounted := by
  have hself : s.events ⊆ s.events := List.Subset.refl _
  have hkept : ∀ id, s.attention.lookup id ≠ none →
      s.attention.lookup id ≠ none ∨ s.stage.process = some id := fun id h => .inl h
  have hstage : ∀ id, s.stage.process = some id →
      s.stage.process = some id ∨ s.registered id ≠ none := fun id h => .inl h
  cases e with
  | register entry =>
    cases hstep
    refine hs.mono (fun id hlive => .inl ?_) (fun id hleave => .inr (.inl hleave)) hself hkept
      hstage
    obtain ⟨view, hview⟩ := ne_none_iff_exists'.mp hlive
    obtain ⟨other, hother⟩ := exists_put (k := s.nextProcess) (x := entry) hview
    exact ne_none_iff_exists'.mpr ⟨other, hother⟩
  | update id entry =>
    cases hstep
    refine hs.mono (fun other hlive => .inl ?_) (fun id hleave => .inr (.inl hleave)) hself
      hkept hstage
    obtain ⟨view, hview⟩ := ne_none_iff_exists'.mp hlive
    obtain ⟨after, hafter⟩ := exists_modify (k := id) (f := fun _ => entry) hview
    exact ne_none_iff_exists'.mpr ⟨after, hafter⟩
  | remove id =>
    simp only [NotificationReactor.step] at hstep
    split at hstep
    case h_1 =>
      cases hstep
      refine hs.mono (fun other hlive => ?_)
        (fun other hleave => .inr (.inl (mem_append_left _ hleave))) hself hkept hstage
      by_cases hsame : other = id
      · exact .inr (.inl (mem_append_right _ (mem_singleton.mpr hsame)))
      · obtain ⟨view, hview⟩ := ne_none_iff_exists'.mp hlive
        have hafter : s.registered.erase id other = some view :=
          erase_eq_some.mpr ⟨hsame, hview⟩
        exact .inl (ne_none_iff_exists'.mpr ⟨view, hafter⟩)
    case h_2 => cases hstep
  | announceRemoval id =>
    simp only [NotificationReactor.step] at hstep
    split_ifs at hstep
    cases hstep
    refine hs.mono (fun other hlive => .inl hlive) (fun other hleave => ?_)
      (subset_append_left _ _) hkept hstage
    by_cases hsame : other = id
    · subst hsame
      exact .inr (.inr (mem_append_right _ (mem_singleton.mpr rfl)))
    · exact .inr (.inl ((mem_erase_of_ne hsame).mpr hleave))
  | publish event =>
    simp only [NotificationReactor.step] at hstep
    split_ifs at hstep
    cases hstep
    exact hs.within rfl rfl (subset_append_left _ _) hkept hstage
  | setNotifications notifications =>
    cases hstep
    exact hs.within rfl rfl hself hkept hstage
  | setProjectSettings project settings =>
    cases hstep
    exact hs.within rfl rfl hself hkept hstage
  | setPresence presence =>
    cases hstep
    refine hs.within rfl rfl ?_ hkept hstage
    dsimp only
    split_ifs
    · exact hself
    · exact subset_append_left _ _
  | see id =>
    simp only [NotificationReactor.step] at hstep
    split_ifs at hstep
    cases hstep
    have hcleared := hs.clearUnread id
    exact ⟨hcleared.unread, hcleared.alerting⟩
  | clearAttention id =>
    cases hstep
    exact hs.clearUnread id
  | clearAllAttention =>
    have hempty : ∀ id, AList.lookup id (∅ : AttentionRegistry) ≠ none →
        s.attention.lookup id ≠ none ∨ s.stage.process = some id := by
      intro id hid
      exact absurd (AList.lookup_empty id) hid
    simp only [NotificationReactor.step, AttentionRegistry.clearAll] at hstep
    split at hstep
    · rename_i attention hcleared
      obtain ⟨rfl, -⟩ := Prod.mk.inj hcleared
      cases hstep
      exact hs.within rfl rfl (subset_append_left _ _) hempty hstage
    · rename_i attention hcleared
      obtain ⟨rfl, -⟩ := Prod.mk.inj hcleared
      cases hstep
      exact hs.within rfl rfl hself hempty hstage
  | lag dropped =>
    simp only [NotificationReactor.step] at hstep
    split_ifs at hstep with hlag
    cases hstep
    constructor
    · intro id hid
      rcases hs.unread id hid with hlive | hleave | hevent
      · exact .inl hlive
      · exact .inr (.inl hleave)
      · rw [← take_append_drop dropped s.events] at hevent
        rcases mem_append.mp hevent with hgone | hevent
        · exact absurd (hretains _ hgone id rfl) hid
        · exact .inr (.inr hevent)
    · intro id hid
      have hid : s.stage.process = some id := hid
      rw [hlag.1] at hid
      cases hid
  | recv =>
    simp only [NotificationReactor.step] at hstep
    split at hstep
    case h_1 event events hidle hevents =>
      cases hstep
      exact hs.recv hidle hevents
    case h_2 => cases hstep
  | advance fault => exact hs.advance hstep

def departures (s : NotificationReactor) : List ProcessId :=
  s.events.filterMap NoticeEvent.departed

theorem mem_departures : id ∈ s.departures ↔ .processRemoved id ∈ s.events := by
  unfold departures
  rw [mem_filterMap]
  constructor
  · rintro ⟨event, hevent, hdeparted⟩
    rw [departed_eq_some.mp hdeparted] at hevent
    exact hevent
  · intro hevent
    exact ⟨_, hevent, rfl⟩

theorem departures_append {notices : List NoticeEvent} (hevents : t.events = s.events ++ notices)
    (hnotices : ∀ event ∈ notices, event.departed = none) : t.departures = s.departures := by
  have hnone : notices.filterMap NoticeEvent.departed = [] := filterMap_eq_nil_iff.mpr hnotices
  unfold departures
  rw [hevents, filterMap_append, hnone, append_nil]

/-- What a step may do to the registry and to what is on the way to be announced. -/
inductive Turns (s t : NotificationReactor) : Prop
  /-- Nothing, but that the oldest departures may be consumed or dropped. -/
  | within (hregistered : ∀ id, t.registered id = none ↔ s.registered id = none)
      (hnext : t.nextProcess = s.nextProcess) (hleaving : t.leaving = s.leaving)
      (hdepartures : t.departures <:+ s.departures)
  | entered (entry : NoticeEntry)
      (hregistered : t.registered = s.registered.put s.nextProcess entry)
      (hnext : t.nextProcess = s.nextProcess + 1) (hleaving : t.leaving = s.leaving)
      (hdepartures : t.departures = s.departures)
  | left (id : ProcessId) (hlive : s.registered id ≠ none)
      (hregistered : t.registered = s.registered.erase id) (hnext : t.nextProcess = s.nextProcess)
      (hleaving : t.leaving = s.leaving ++ [id]) (hdepartures : t.departures = s.departures)
  | announced (id : ProcessId) (hid : id ∈ s.leaving) (hregistered : t.registered = s.registered)
      (hnext : t.nextProcess = s.nextProcess) (hleaving : t.leaving = s.leaving.erase id)
      (hdepartures : t.departures = s.departures ++ [id])

theorem Turns.same (hregistered : t.registered = s.registered)
    (hnext : t.nextProcess = s.nextProcess) (hleaving : t.leaving = s.leaving) (hdepartures : t.departures = s.departures) : s.Turns t :=
  .within (fun id => by rw [hregistered]) hnext hleaving (hdepartures ▸ suffix_refl _)

theorem departed_singleton {event : NoticeEvent} (hevent : event.departed = none) :
    ∀ notice ∈ [event], notice.departed = none := by
  intro notice hnotice
  rw [mem_singleton.mp hnotice]
  exact hevent

theorem turns_clearUnread (s : NotificationReactor) (id : ProcessId) :
    s.Turns (s.clearUnread id) := by
  obtain ⟨notices, hnotices, heq⟩ := clearUnread_eq s id
  rw [heq]
  exact .same rfl rfl rfl (departures_append rfl hnotices)

theorem turns_advance (hstep : s.advance fault = some t) : s.Turns t := by
  unfold NotificationReactor.advance at hstep
  split at hstep
  case h_1 => cases hstep
  case h_3 =>
    split at hstep <;> obtain rfl := some.inj hstep <;> exact .same rfl rfl rfl rfl
  case h_6 =>
    split at hstep <;> obtain rfl := some.inj hstep <;> exact .same rfl rfl rfl rfl
  case h_7 alert _ =>
    cases hstep
    unfold deliver
    split
    · exact .same rfl rfl rfl rfl
    · exact .same rfl rfl rfl rfl
    · exact .same rfl rfl rfl (departures_append rfl (departed_singleton rfl))
  case h_8 =>
    cases hstep
    exact .same rfl rfl rfl (departures_append rfl (departed_singleton rfl))
  all_goals
    cases hstep
    exact .same rfl rfl rfl rfl

theorem turns_recv (hevents : s.events = event :: events) :
    s.Turns ({ s with events }.react event) := by
  have hsuffix : events.filterMap NoticeEvent.departed <:+ s.departures := by
    unfold departures
    rw [hevents]
    exact (suffix_cons event events).filterMap _
  unfold react
  split
  case h_1 _ id _ =>
    obtain ⟨notices, hnotices, heq⟩ := clearUnread_eq { s with events } id
    rw [heq]
    refine .within (fun _ => Iff.rfl) rfl rfl ?_
    have hsame : departures { s with
        attention := (s.attention.clear id).1, events := events ++ notices } =
        events.filterMap NoticeEvent.departed :=
      departures_append (s := { s with events }) rfl hnotices
    rw [hsame]
    exact hsuffix
  case h_2 => exact .within (fun _ => Iff.rfl) rfl rfl hsuffix
  case h_3 => exact .within (fun _ => Iff.rfl) rfl rfl hsuffix

theorem turns_of_step (hstep : s.step e = some t) : s.Turns t := by
  cases e with
  | register entry =>
    cases hstep
    exact .entered entry rfl rfl rfl rfl
  | update id entry =>
    cases hstep
    refine .within (fun other => ?_) rfl rfl (suffix_refl _)
    by_cases hsame : other = id
    · subst hsame
      cases hview : s.registered other with
      | none => simp [Slots.modify, hview]
      | some view => simp [Slots.modify, hview]
    · simp [modify_of_ne hsame]
  | remove id =>
    simp only [NotificationReactor.step] at hstep
    split at hstep
    case h_1 view hview =>
      cases hstep
      refine .left id ?_ rfl rfl rfl rfl
      rw [hview]
      exact some_ne_none view
    case h_2 => cases hstep
  | announceRemoval id =>
    simp only [NotificationReactor.step] at hstep
    split_ifs at hstep with hid
    cases hstep
    refine .announced id hid rfl rfl rfl ?_
    exact filterMap_append
  | publish event =>
    simp only [NotificationReactor.step] at hstep
    split_ifs at hstep with hevent
    cases hstep
    exact .same rfl rfl rfl (departures_append rfl (departed_singleton hevent))
  | setNotifications notifications =>
    cases hstep
    exact .same rfl rfl rfl rfl
  | setProjectSettings project settings =>
    cases hstep
    exact .same rfl rfl rfl rfl
  | setPresence presence =>
    cases hstep
    by_cases hsame : s.presence = presence
    · refine .same rfl rfl rfl ?_
      show (if s.presence = presence then _ else _ : List NoticeEvent).filterMap _ = _
      rw [if_pos hsame]
      rfl
    · refine .same rfl rfl rfl (departures_append (if_neg hsame) (departed_singleton rfl))
  | see id =>
    simp only [NotificationReactor.step] at hstep
    split_ifs at hstep
    cases hstep
    obtain ⟨notices, hnotices, heq⟩ := clearUnread_eq s id
    rw [heq]
    exact .same rfl rfl rfl (departures_append rfl hnotices)
  | clearAttention id =>
    cases hstep
    exact turns_clearUnread s id
  | clearAllAttention =>
    simp only [NotificationReactor.step] at hstep
    split at hstep <;> cases hstep
    · exact .same rfl rfl rfl (departures_append rfl (departed_singleton rfl))
    · exact .same rfl rfl rfl rfl
  | lag dropped =>
    simp only [NotificationReactor.step] at hstep
    split_ifs at hstep
    cases hstep
    exact .within (fun _ => Iff.rfl) rfl rfl ((drop_suffix dropped s.events).filterMap _)
  | recv =>
    simp only [NotificationReactor.step] at hstep
    split at hstep
    case h_1 event events _ hevents =>
      cases hstep
      exact turns_recv hevents
    case h_2 => cases hstep
  | advance fault => exact turns_advance hstep

/-- Departures are of processes that are gone for good, and each is announced once. -/
structure Departing (s : NotificationReactor) : Prop where
  nodup : (s.leaving ++ s.departures).Nodup
  gone : ∀ id ∈ s.leaving ++ s.departures, s.registered id = none ∧ id < s.nextProcess
  known : ∀ id, s.registered id ≠ none → id < s.nextProcess

theorem Departing.turn (hs : s.Departing) (hturn : s.Turns t) : t.Departing := by
  cases hturn with
  | within hregistered hnext hleaving hdepartures =>
    have hsub : (t.leaving ++ t.departures).Sublist (s.leaving ++ s.departures) := by
      rw [hleaving]
      exact hdepartures.sublist.append_left _
    refine ⟨hs.nodup.sublist hsub, fun id hid => ?_, fun id hid => ?_⟩
    · rw [hregistered, hnext]
      exact hs.gone id (hsub.subset hid)
    · rw [hnext]
      exact hs.known id fun hnone => hid ((hregistered id).mpr hnone)
  | entered entry hregistered hnext hleaving hdepartures =>
    constructor
    · rw [hleaving, hdepartures]
      exact hs.nodup
    · intro id hid
      rw [hleaving, hdepartures] at hid
      obtain ⟨hnone, hlt⟩ := hs.gone id hid
      rw [hregistered, hnext, put_of_ne (Nat.ne_of_lt hlt)]
      exact ⟨hnone, Nat.lt_succ_of_lt hlt⟩
    · intro id hid
      rw [hnext]
      by_cases hnew : id = s.nextProcess
      · rw [hnew]
        exact Nat.lt_succ_self _
      · rw [hregistered, put_of_ne hnew] at hid
        exact Nat.lt_succ_of_lt (hs.known id hid)
  | left id hlive hregistered hnext hleaving hdepartures =>
    have hperm : (t.leaving ++ t.departures).Perm (id :: (s.leaving ++ s.departures)) := by
      rw [hleaving, hdepartures, append_assoc]
      exact perm_middle
    have hfresh : id ∉ s.leaving ++ s.departures := fun hid => hlive (hs.gone id hid).1
    refine ⟨hperm.nodup_iff.mpr (nodup_cons.mpr ⟨hfresh, hs.nodup⟩), fun other hother => ?_,
      fun other hother => ?_⟩
    · rw [hregistered, hnext]
      rcases mem_cons.mp (hperm.mem_iff.mp hother) with rfl | hother
      · exact ⟨if_pos rfl, hs.known _ hlive⟩
      · obtain ⟨hnone, hlt⟩ := hs.gone other hother
        exact ⟨erase_of_none hnone, hlt⟩
    · rw [hnext]
      refine hs.known other fun hnone => hother ?_
      rw [hregistered]
      exact erase_of_none hnone
  | announced id hid hregistered hnext hleaving hdepartures =>
    have hperm : (t.leaving ++ t.departures).Perm (s.leaving ++ s.departures) := by
      rw [hleaving, hdepartures]
      calc s.leaving.erase id ++ (s.departures ++ [id])
          |>.Perm (s.leaving.erase id ++ (id :: s.departures)) :=
            (perm_append_singleton id s.departures).append_left _
        _ |>.Perm (id :: s.leaving.erase id ++ s.departures) := perm_middle
        _ |>.Perm (s.leaving ++ s.departures) :=
            (perm_cons_erase hid).symm.append_right _
    refine ⟨hperm.nodup_iff.mpr hs.nodup, fun other hother => ?_, fun other hother => ?_⟩
    · rw [hregistered, hnext]
      exact hs.gone other (hperm.mem_iff.mp hother)
    · rw [hregistered] at hother
      rw [hnext]
      exact hs.known other hother

def dismisses (id : ProcessId) : NoticeStep → Bool
  | .see other | .clearAttention other => other = id
  | .clearAllAttention => true
  | _ => false

theorem unread_step (hid : s.attention.lookup id ≠ none) (hkeeps : dismisses id e = false)
    (hdeparture : .processRemoved id ∉ s.events) (hstep : s.step e = some t) :
    t.attention.lookup id ≠ none := by
  have hcleared : ∀ (u : NotificationReactor) (other : ProcessId),
      u.attention.lookup id ≠ none → other ≠ id →
      (u.clearUnread other).attention.lookup id ≠ none := by
    intro u other hu hne
    obtain ⟨notices, -, heq⟩ := clearUnread_eq u other
    rw [heq]
    show (u.attention.clear other).1.lookup id ≠ none
    rw [AttentionRegistry.lookup_clear, if_neg hne.symm]
    exact hu
  cases e with
  | see other =>
    simp only [NotificationReactor.step] at hstep
    split_ifs at hstep
    cases hstep
    exact hcleared s other hid (of_decide_eq_false hkeeps)
  | clearAttention other =>
    cases hstep
    exact hcleared s other hid (of_decide_eq_false hkeeps)
  | clearAllAttention => cases hkeeps
  | remove | announceRemoval | publish | lag =>
    simp only [NotificationReactor.step] at hstep
    split at hstep
    · cases hstep
      exact hid
    · cases hstep
  | recv =>
    simp only [NotificationReactor.step] at hstep
    split at hstep
    case h_1 event events _ hevents =>
      cases hstep
      unfold react
      split
      case h_1 _ other hdeparted =>
        refine hcleared { s with events } other hid fun hsame => hdeparture ?_
        rw [hevents, departed_eq_some.mp hdeparted, hsame]
        exact .head _
      case h_2 => exact hid
      case h_3 => exact hid
    case h_2 => cases hstep
  | advance fault =>
    simp only [NotificationReactor.step, NotificationReactor.advance] at hstep
    split at hstep
    case h_1 => cases hstep
    case h_3 => split at hstep <;> obtain rfl := some.inj hstep <;> exact hid
    case h_6 => split at hstep <;> obtain rfl := some.inj hstep <;> exact hid
    case h_7 =>
      cases hstep
      unfold deliver
      split <;> exact hid
    case h_8 process kind _ =>
      cases hstep
      show (s.attention.raise process kind).lookup id ≠ none
      rw [AttentionRegistry.lookup_raise]
      split_ifs
      · exact some_ne_none _
      · exact hid
    all_goals
      cases hstep
      exact hid
  | _ =>
    cases hstep
    exact hid

structure Stranded (s : NotificationReactor) (id : ProcessId) : Prop where
  unread : s.attention.lookup id ≠ none
  gone : s.registered id = none ∧ id < s.nextProcess
  missed : id ∉ s.leaving ++ s.departures

theorem Stranded.step (hs : s.Stranded id) (hkeeps : dismisses id e = false)
    (hstep : s.step e = some t) : t.Stranded id := by
  have hdeparture : .processRemoved id ∉ s.events := fun hevent =>
    hs.missed (mem_append_right _ (mem_departures.mpr hevent))
  have hunread := unread_step hs.unread hkeeps hdeparture hstep
  obtain ⟨hnone, hlt⟩ := hs.gone
  cases turns_of_step hstep with
  | within hregistered hnext hleaving hdepartures =>
    refine ⟨hunread, ⟨(hregistered id).mpr hnone, hnext ▸ hlt⟩, fun hid => hs.missed ?_⟩
    rw [hleaving] at hid
    exact (hdepartures.sublist.append_left _).subset hid
  | entered entry hregistered hnext hleaving hdepartures =>
    refine ⟨hunread, ⟨?_, ?_⟩, ?_⟩
    · rw [hregistered, put_of_ne (Nat.ne_of_lt hlt)]
      exact hnone
    · rw [hnext]
      exact Nat.lt_succ_of_lt hlt
    · rw [hleaving, hdepartures]
      exact hs.missed
  | left other hlive hregistered hnext hleaving hdepartures =>
    refine ⟨hunread, ⟨?_, hnext ▸ hlt⟩, fun hid => hs.missed ?_⟩
    · rw [hregistered]
      exact erase_of_none hnone
    · rw [hleaving, hdepartures] at hid
      rcases mem_append.mp hid with hid | hid
      · rcases mem_append.mp hid with hid | hid
        · exact mem_append_left _ hid
        · rw [← mem_singleton.mp hid] at hlive
          exact absurd hnone hlive
      · exact mem_append_right _ hid
  | announced other hother hregistered hnext hleaving hdepartures =>
    refine ⟨hunread, ⟨hregistered ▸ hnone, hnext ▸ hlt⟩, fun hid => hs.missed ?_⟩
    rw [hleaving, hdepartures] at hid
    rcases mem_append.mp hid with hid | hid
    · exact mem_append_left _ (mem_of_mem_erase hid)
    · rcases mem_append.mp hid with hid | hid
      · exact mem_append_right _ hid
      · rw [mem_singleton.mp hid]
        exact mem_append_left _ hother

theorem stranded_of_lag {dropped : ℕ} (hs : s.Departing) (hdrops : ¬s.Retains (.lag dropped))
    (hstep : s.step (.lag dropped) = some t) : ∃ id, t.Stranded id := by
  simp only [NotificationReactor.step] at hstep
  split_ifs at hstep
  cases hstep
  unfold Retains at hdrops
  push Not at hdrops
  obtain ⟨event, hevent, id, hdeparted, hunread⟩ := hdrops
  have htaken : id ∈ (s.events.take dropped).filterMap NoticeEvent.departed :=
    mem_filterMap.mpr ⟨event, hevent, hdeparted⟩
  have hsplit : s.departures = (s.events.take dropped).filterMap NoticeEvent.departed ++
      (s.events.drop dropped).filterMap NoticeEvent.departed := by
    rw [← filterMap_append, take_append_drop]
    rfl
  have hnodup := hs.nodup
  have hgone := hs.gone id (mem_append_right _ (hsplit ▸ mem_append_left _ htaken))
  rw [hsplit] at hnodup
  refine ⟨id, hunread, hgone, fun hid => ?_⟩
  rcases mem_append.mp hid with hid | hid
  · exact (disjoint_of_nodup_append hnodup) hid (mem_append_left _ htaken)
  · exact (disjoint_of_nodup_append (nodup_append.mp hnodup).2.1) htaken hid

def notificationReactor : Machine NotificationReactor NoticeStep where
  init s := s = .init
  step := step

theorem accounted_init : init.Accounted where
  unread id hid := absurd (AList.lookup_empty id) hid
  alerting _ hid := by cases hid

theorem departing_init : init.Departing where
  nodup := nodup_nil
  gone _ hid := by cases hid
  known _ hid := absurd rfl hid

/-- Everything unread is of registered processes, so that visiting those clears the count. -/
structure Clearable (s : NotificationReactor) : Prop where
  registered : ∀ entry ∈ s.attention.snapshot.processes, s.registered entry.process ≠ none
  cleared : ∀ processes, (∀ id, s.registered id ≠ none → id ∈ processes) →
    (s.attention.visited processes).snapshot.total = 0

theorem Accounted.clearable (hs : s.Accounted) (hsettled : s.Settled) : s.Clearable := by
  have hregistered : ∀ id, s.attention.lookup id ≠ none → s.registered id ≠ none := by
    intro id hid
    rcases hs.unread id hid with hlive | hleave | hevent
    · exact hlive
    · rw [hsettled.leaving] at hleave
      cases hleave
    · rw [hsettled.events] at hevent
      cases hevent
  constructor
  · intro entry hentry
    refine hregistered entry.process ?_
    rw [AttentionRegistry.mem_snapshot.mp hentry]
    exact some_ne_none _
  · exact fun processes hall => AttentionRegistry.total_visited fun id hid =>
      hall id (hregistered id hid)

/-- Unread attention never strands in a run that drops no departure of a process with something
unread; and where one is dropped, the process stays unread until the user dismisses it. -/
theorem attention_never_strands (s : NotificationReactor) :
    (notificationReactor.ReachableUnder Retains s →
      s.attention.snapshot.total =
        (s.attention.snapshot.processes.map ProcessAttention.alerts).sum ∧
      (s.Settled → s.Clearable)) ∧
    ∀ t dropped, notificationReactor.Reachable s → ¬s.Retains (.lag dropped) →
      s.step (.lag dropped) = some t → ∃ id, ∀ es u,
        notificationReactor.Along (fun _ e => dismisses id e = false) t es →
        notificationReactor.run t es = some u →
          u.attention.lookup id ≠ none ∧ u.registered id = none := by
  constructor
  · intro hs
    refine ⟨rfl, fun hsettled => ?_⟩
    have haccounted : s.Accounted := by
      refine hs.invariant ?_ fun s e t hretains hs hstep => hs.step hretains hstep
      rintro _ rfl
      exact accounted_init
    exact haccounted.clearable hsettled
  · intro t dropped hs hdrops hstep
    have hdeparting : s.Departing := by
      refine hs.invariant ?_ fun s e t hs hstep => hs.turn (turns_of_step hstep)
      rintro _ rfl
      exact departing_init
    obtain ⟨id, hstranded⟩ := stranded_of_lag hdeparting hdrops hstep
    refine ⟨id, fun es u hkeeps hrun => ?_⟩
    have hstill : u.Stranded id := Machine.invariant_along (P := fun u => Stranded u id)
      (fun _ _ _ hkeeps hs hstep => hs.step hkeeps hstep) hstranded hkeeps hrun
    exact ⟨hstill.unread, hstill.gone.1⟩

/-- A terminal rings while another leaves, whose departure a lag drops: it had nothing unread. -/
theorem attention_follows_departure :
    ∃ s, notificationReactor.ReachableUnder Retains s ∧
      (s.attention.lookup 0 ≠ none ∧ s.registered 1 = none) ∧ s.Clearable := by
  obtain ⟨s, hs, hsettled, hgone⟩ := Machine.exists_reachableUnder_of_run
    (M := notificationReactor) (G := Retains) rfl
    [.register ⟨0, "web", false⟩, .register ⟨0, "worker", false⟩, .publish (.terminalBell 0), .recv,
      .advance false, .advance false, .advance false, .advance false, .advance false, .remove 1,
      .advance false, .advance false, .announceRemoval 1, .lag 2]
    (by decide)
    (fun s => s.Settled ∧ s.attention.lookup 0 ≠ none ∧ s.registered 1 = none) (by decide)
  exact ⟨s, hs, hgone, ((attention_never_strands s).1 hs).2 hsettled⟩

/-- The departure of a process with something unread is dropped: it stays in the count with
everything consumed. -/
theorem attention_strands :
    ∃ s, notificationReactor.Reachable s ∧ s.Settled ∧ s.attention.lookup 0 ≠ none ∧
      s.registered 0 = none :=
  Machine.exists_reachable_of_run (M := notificationReactor) rfl
    [.register ⟨0, "web", false⟩, .publish (.terminalBell 0), .recv, .advance false,
      .advance false, .advance false, .advance false, .advance false, .advance false,
      .advance false, .remove 0, .announceRemoval 0, .lag 2]
    (fun s => s.Settled ∧ s.attention.lookup 0 ≠ none ∧ s.registered 0 = none) (by decide)

end Soloist.Notify.NotificationReactor
