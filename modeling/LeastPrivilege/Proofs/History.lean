import LeastPrivilege.Proofs.Buckets
import LeastPrivilege.Proofs.Tables

/-!
# What a counter knows of its history

Counts begin anew with every reset, whether it was asked for or came from a change of process. The
capabilities that are gone stay gone until the counter is set up on request again.
-/

namespace LeastPrivilege

theorem CapabilitySet.sdiff_empty (s : CapabilitySet) : s \ ∅ = s :=
  ext fun x => by simp

namespace Counter

namespace Event

/-- The number of operations that an event counts, if it is one that counts. -/
def counted? : Event → Option Nat
  | start _ => none
  | count n => some n
  | drop n _ => some n
  | identityChanged n => some n
  | announceFork => none

/-- The number of operations that events count together. -/
def countedBy (events : List Event) : Nat :=
  (events.filterMap counted?).sum

/-- The capabilities with which an event asks for the counter to be set up. -/
def initial? : Event → Option CapabilitySet
  | start s => some s
  | _ => none

/-- The capabilities that an event takes away. -/
def dropped : Event → CapabilitySet
  | drop _ s => s
  | _ => ∅

/-- The capabilities that events take away together. -/
def droppedBy (events : List Event) : CapabilitySet :=
  events.foldl (fun s e => s ∪ e.dropped) ∅

/-- Whether an event is a reset, given the process of the reset before it: it asks for one, or it
counts operations in another process or without a reset before it. -/
def Resets (previous? : Option UInt32) (live : Host) (e : Event) : Prop :=
  e.initial?.isSome ∨ e.counted?.isSome ∧ previous? ≠ some live.pid

instance (previous? : Option UInt32) (live : Host) (e : Event) :
    Decidable (e.Resets previous? live) :=
  inferInstanceAs (Decidable (_ ∨ _))

@[simp] theorem countedBy_nil : countedBy [] = 0 :=
  rfl

theorem countedBy_cons (e : Event) (events : List Event) :
    countedBy (e :: events) = e.counted?.getD 0 + countedBy events := by
  rw [countedBy, countedBy, List.filterMap_cons]
  cases e.counted? <;> simp

theorem countedBy_append (events later : List Event) :
    countedBy (events ++ later) = countedBy events + countedBy later := by
  rw [countedBy, List.filterMap_append, List.sum_append]
  rfl

theorem mem_droppedBy {events : List Event} {x : Capability} :
    x ∈ droppedBy events ↔ ∃ e ∈ events, x ∈ e.dropped := by
  simp [droppedBy, CapabilitySet.mem_foldl_union]

end Event

/-- The process of the last reset in a history. -/
def resetPid? (history : List (Host × Event)) : Option UInt32 :=
  history.foldl (fun previous? x => if x.2.Resets previous? x.1 then some x.1.pid else previous?)
    none

/-- The process that set a counter up. -/
def owner? (c : Counter) : Option UInt32 :=
  if c.started then some c.pid else none

variable {c : Counter} {live : Host} {e : Event} {events : List (Host × Event)} {n : Nat}

theorem run_append (c : Counter) (events later : List (Host × Event)) :
    c.run (events ++ later) = (c.run events).run later :=
  List.foldl_append

theorem owner?_fresh : fresh.owner? = none :=
  rfl

theorem pid_of_owner? {pid : UInt32} (h : c.owner? = some pid) : c.pid = pid := by
  rw [owner?] at h
  split at h
  · exact Option.some.inj h
  · cases h

/-! ## Counts -/

theorem ensure_of_owner (h : c.owner? = some live.pid) : c.ensure live = c := by
  cases hstarted : c.started with
  | false => simp [owner?, hstarted] at h
  | true => simp [ensure, hstarted, pid_of_owner? h]

theorem ensure_of_other (h : c.owner? ≠ some live.pid) : ∃ s, c.ensure live = c.start live s := by
  rw [ensure]
  cases hstarted : c.started with
  | false => exact ⟨∅, rfl⟩
  | true =>
    have hpid : live.pid ≠ c.pid := by
      intro hpid
      simp [owner?, hstarted, hpid] at h
    exact ⟨c.set, by simp [hpid]⟩

theorem remove_keeps (c : Counter) (s : CapabilitySet) :
    (c.remove s).owner? = c.owner? ∧ (c.remove s).total = c.total := by
  rw [remove]
  split <;> exact ⟨rfl, rfl⟩

theorem observe_keeps (c : Counter) (i : Identity) :
    (c.observe i).owner? = c.owner? ∧ (c.observe i).total = c.total := by
  rw [observe]
  split <;> exact ⟨rfl, rfl⟩

/-- For the total, all events that count are alike. -/
theorem apply_of_counted (h : e.counted? = some n) :
    (c.apply live e).owner? = (c.count live n).owner? ∧
      (c.apply live e).total = (c.count live n).total := by
  cases e with
  | start s => cases h
  | count m =>
    obtain rfl := Option.some.inj h
    exact ⟨rfl, rfl⟩
  | drop m s =>
    obtain rfl := Option.some.inj h
    exact remove_keeps ..
  | identityChanged m =>
    obtain rfl := Option.some.inj h
    exact observe_keeps ..
  | announceFork => cases h

/-- After a reset only what it counts itself has been counted. -/
theorem apply_of_resets (h : e.Resets c.owner? live) :
    (c.apply live e).owner? = some live.pid ∧ (c.apply live e).total = e.counted?.getD 0 := by
  rcases h with hrequest | ⟨hcounts, hother⟩
  · cases e with
    | start s => exact ⟨rfl, rfl⟩
    | _ => cases hrequest
  · obtain ⟨n, hn⟩ := Option.isSome_iff_exists.1 hcounts
    obtain ⟨s, hs⟩ := ensure_of_other hother
    rw [(apply_of_counted hn).1, (apply_of_counted hn).2, count, hs, hn]
    exact ⟨rfl, Nat.zero_add n⟩

/-- Any other event adds what it counts. -/
theorem apply_of_not_resets (h : ¬e.Resets c.owner? live) :
    (c.apply live e).owner? = c.owner? ∧
      (c.apply live e).total = c.total + e.counted?.getD 0 := by
  cases hcounted : e.counted? with
  | none =>
    cases e with
    | start s => exact absurd (Or.inl rfl) h
    | announceFork => exact ⟨rfl, rfl⟩
    | _ => cases hcounted
  | some n =>
    have howner : c.owner? = some live.pid := by
      by_contra hother
      exact h (Or.inr ⟨by simp [hcounted], hother⟩)
    rw [(apply_of_counted hcounted).1, (apply_of_counted hcounted).2, count, ensure_of_owner howner]
    exact ⟨rfl, rfl⟩

/-- Without a reset, events add what they count together. -/
theorem run_of_quiet (h : ∀ x ∈ events, ¬x.2.Resets c.owner? x.1) :
    (c.run events).owner? = c.owner? ∧
      (c.run events).total = c.total + Event.countedBy (events.map Prod.snd) := by
  induction events generalizing c with
  | nil => exact ⟨rfl, rfl⟩
  | cons x events ih =>
    obtain ⟨hx, hevents⟩ := List.forall_mem_cons.1 h
    obtain ⟨howner, htotal⟩ := apply_of_not_resets hx
    rw [← howner] at hevents
    obtain ⟨howner', htotal'⟩ := ih hevents
    refine ⟨howner'.trans howner, ?_⟩
    rw [List.map_cons, Event.countedBy_cons, ← Nat.add_assoc, ← htotal]
    exact htotal'

/-- The owner of a counter is the process of the last reset. -/
theorem owner?_run (history : List (Host × Event)) :
    (fresh.run history).owner? = resetPid? history := by
  have hfold : ∀ c : Counter, (c.run history).owner? = history.foldl (fun previous? x =>
      if x.2.Resets previous? x.1 then some x.1.pid else previous?) c.owner? := by
    intro c
    induction history generalizing c with
    | nil => rfl
    | cons x history ih =>
      refine (ih (c.apply x.1 x.2)).trans ?_
      rw [List.foldl_cons]
      by_cases hx : x.2.Resets c.owner? x.1
      · rw [if_pos hx, (apply_of_resets hx).1]
      · rw [if_neg hx, (apply_of_not_resets hx).1]
  exact hfold fresh

theorem run_of_last_reset {before after : List (Host × Event)}
    (hreset : e.Resets (resetPid? before) live)
    (hquiet : ∀ x ∈ after, ¬x.2.Resets (some live.pid) x.1) :
    (fresh.run (before ++ (live, e) :: after)).owner? = some live.pid ∧
      (fresh.run (before ++ (live, e) :: after)).total =
        Event.countedBy (e :: after.map Prod.snd) := by
  rw [← owner?_run] at hreset
  obtain ⟨howner, htotal⟩ := apply_of_resets hreset
  rw [← howner] at hquiet
  obtain ⟨howner', htotal'⟩ := run_of_quiet hquiet
  rw [run_append, Event.countedBy_cons, ← htotal]
  exact ⟨howner'.trans howner, htotal'⟩

/-- A history has no reset, or it has a last one. -/
theorem exists_last_reset (history : List (Host × Event)) :
    (∀ x ∈ history, ¬x.2.Resets none x.1) ∨
      ∃ before live e after, history = before ++ (live, e) :: after ∧
        e.Resets (resetPid? before) live ∧ ∀ x ∈ after, ¬x.2.Resets (some live.pid) x.1 := by
  -- Induction from the end: the last event is a reset, or else the last reset is that of the events
  -- before it.
  induction history using List.reverseRecOn with
  | nil => exact Or.inl (by simp)
  | append_singleton history x ih =>
    by_cases hx : x.2.Resets (resetPid? history) x.1
    · exact Or.inr ⟨history, x.1, x.2, [], rfl, hx, by simp⟩
    · rw [← owner?_run] at hx
      rcases ih with hnone | ⟨before, live, e, after, rfl, hreset, hquiet⟩
      · rw [(run_of_quiet hnone).1, owner?_fresh] at hx
        exact Or.inl (List.forall_mem_append.2 ⟨hnone, by simpa using hx⟩)
      · rw [(run_of_last_reset hreset hquiet).1] at hx
        refine Or.inr ⟨before, live, e, after ++ [x], by simp, hreset, ?_⟩
        exact List.forall_mem_append.2 ⟨hquiet, by simpa using hx⟩

/-- Without a reset nothing has been counted, since the first event that counts is one. -/
theorem countedBy_of_quiet (h : ∀ x ∈ events, ¬x.2.Resets none x.1) :
    Event.countedBy (events.map Prod.snd) = 0 := by
  have hnone : (events.map Prod.snd).filterMap Event.counted? = [] := by
    rw [List.filterMap_eq_nil_iff, List.forall_mem_map]
    intro x hx
    by_contra hcounts
    exact h x hx (Or.inr ⟨Option.isSome_iff_ne_none.2 hcounts, by simp⟩)
  rw [Event.countedBy, hnone, List.sum_nil]

/-! ## Capabilities -/

theorem set_ensure (h : c.Idle ∨ c.Running) (live : Host) : (c.ensure live).set = c.set := by
  rw [ensure]
  rcases h with ⟨n, rfl⟩ | h
  · rfl
  · rw [if_neg (by simp [h.started])]
    split <;> rfl

theorem set_remove (h : c.Running) (s : CapabilitySet) : (c.remove s).set = c.set \ s := by
  have haccount := congrArg Account.set (h.account_remove s)
  rw [account_set, Account.remove] at haccount
  rw [haccount]
  split
  · next hmeet => exact ((CapabilitySet.sdiff_eq_left_iff c.set s).2 hmeet).symm
  · rfl

theorem set_observe (c : Counter) (i : Identity) : (c.observe i).set = c.set := by
  rw [observe]
  split <;> rfl

/-- Only a set-up on request can bring capabilities back. -/
theorem set_apply (h : c.Idle ∨ c.Running) (hrequest : e.initial? = none) :
    (c.apply live e).set = c.set \ e.dropped := by
  have hcount : ∀ n, (c.count live n).set = c.set := fun n => set_ensure h live
  cases e with
  | start s => cases hrequest
  | count n => exact (hcount n).trans (CapabilitySet.sdiff_empty _).symm
  | drop n s =>
    rw [apply, drop, set_remove (running_count h live n), hcount]
    rfl
  | identityChanged n =>
    rw [apply, identityChanged, set_observe, hcount]
    exact (CapabilitySet.sdiff_empty _).symm
  | announceFork => exact (CapabilitySet.sdiff_empty _).symm

theorem set_run (h : c.Idle ∨ c.Running) (hrequest : ∀ x ∈ events, x.2.initial? = none) :
    (c.run events).set = c.set \ Event.droppedBy (events.map Prod.snd) := by
  induction events generalizing c with
  | nil => exact (CapabilitySet.sdiff_empty _).symm
  | cons x events ih =>
    obtain ⟨hx, hevents⟩ := List.forall_mem_cons.1 hrequest
    refine (ih (idle_or_running_apply h x.1 x.2) hevents).trans ?_
    rw [set_apply h hx]
    apply CapabilitySet.ext
    intro y
    simp only [CapabilitySet.mem_sdiff, Event.mem_droppedBy, List.map_cons, List.mem_cons,
      exists_eq_or_imp, not_or, and_assoc]

/-- A history has no request to set the counter up, or it has a last one. -/
theorem exists_last_request (history : List (Host × Event)) :
    (∀ x ∈ history, x.2.initial? = none) ∨
      ∃ before live s after, history = before ++ (live, .start s) :: after ∧
        ∀ x ∈ after, x.2.initial? = none := by
  rcases exists_last (fun x : Host × Event => x.2.initial?.isSome = true) history with
    hnone | ⟨before, ⟨live, e⟩, after, rfl, hrequest, hafter⟩
  · exact Or.inl fun x hx => Option.not_isSome_iff_eq_none.1 (hnone x hx)
  · cases e with
    | start s =>
      exact Or.inr ⟨before, live, s, after, rfl, fun x hx =>
        Option.not_isSome_iff_eq_none.1 (hafter x hx)⟩
    | _ => cases hrequest

/-- What a counter knows of its history. The total is what has been counted from the last reset on,
and the process is that of the reset. The capabilities are those of the last set-up on request,
without all that has been dropped since, however often the process has changed. So what was dropped
does not come back to any process until the counter is set up on request. -/
theorem run_of_history (history : List (Host × Event)) :
    let c := fresh.run history
    ((∀ x ∈ history, ¬x.2.Resets none x.1) ∧ c.total = 0 ∨
      ∃ before live e after, history = before ++ (live, e) :: after ∧
        e.Resets (resetPid? before) live ∧ (∀ x ∈ after, ¬x.2.Resets (some live.pid) x.1) ∧
        c.pid = live.pid ∧ c.total = Event.countedBy (e :: after.map Prod.snd)) ∧
    ((∀ x ∈ history, x.2.initial? = none) ∧ c.set = ∅ ∨
      ∃ before live s after, history = before ++ (live, .start s) :: after ∧
        (∀ x ∈ after, x.2.initial? = none) ∧
        c.set = s \ Event.droppedBy (after.map Prod.snd)) ∧
    ∀ before live n s after, history = before ++ (live, .drop n s) :: after →
      (∀ x ∈ after, x.2.initial? = none) → ∀ x ∈ s, x ∉ c.set := by
  have hreached : ∀ events, (fresh.run events).Idle ∨ (fresh.run events).Running := fun events =>
    idle_or_running_run (Or.inl idle_fresh) events
  refine ⟨?_, ?_, ?_⟩
  · rcases exists_last_reset history with hnone | ⟨before, live, e, after, rfl, hreset, hquiet⟩
    · refine Or.inl ⟨hnone, ?_⟩
      rw [(run_of_quiet hnone).2, countedBy_of_quiet hnone]
      rfl
    · obtain ⟨howner, htotal⟩ := run_of_last_reset hreset hquiet
      exact Or.inr ⟨before, live, e, after, rfl, hreset, hquiet, pid_of_owner? howner, htotal⟩
  · rcases exists_last_request history with hnone | ⟨before, live, s, after, rfl, hafter⟩
    · refine Or.inl ⟨hnone, ?_⟩
      rw [set_run (Or.inl idle_fresh) hnone]
      exact CapabilitySet.ext fun x => by simp [fresh]
    · refine Or.inr ⟨before, live, s, after, rfl, hafter, ?_⟩
      rw [run_append]
      exact set_run (Or.inr (running_start (fresh.run before) live s)) hafter
  · rintro before live n s after rfl hafter x hx hback
    rw [run_append] at hback
    have hset := set_run (idle_or_running_apply (hreached before) live (.drop n s)) hafter
    rw [set_apply (hreached before) rfl] at hset
    have hleft := (CapabilitySet.mem_sdiff.1 (hset ▸ hback)).1
    exact (CapabilitySet.mem_sdiff.1 hleft).2 hx

-- A child counts from the fork on, and cannot drop again what its parent dropped.
example : fresh.run [({ pid := 100 }, .start (.ofList [.chown, .kill])),
    ({ pid := 100 }, .count 10), ({ pid := 100 }, .drop 1 (.single .chown)),
    ({ pid := 100 }, .announceFork), ({ pid := 200 }, .count 7),
    ({ pid := 200 }, .drop 1 (.single .chown))] =
    { started := true, pid := 200, total := 8, set := .single .kill
      removed := (CapabilitySet.single .kill).complement, ledger := [⟨.single .kill, {}, 8⟩] } := by
  decide

end Counter

end LeastPrivilege
