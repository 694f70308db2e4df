import LeastPrivilege.Proofs.History

/-!
# Counters that a process inherits

A forked process finds the counter of its parent. The first event that counts there sets it up anew,
under the identity of that moment, but a report does not: what it shows under the process that asks
for it belongs to the process that set the counter up.
-/

namespace LeastPrivilege

namespace Counter

open Event

variable {c : Counter} {live : Host} {e : Event} {events : List (Host × Event)} {n : Nat}
  {parts : List (List (Host × Event))} {ledger closed : List Bucket} {b : Bucket}

/-! ## What the buckets hold -/

/-- Each bucket of a ledger holds what one of the parts counts. -/
def Divided (ledger : List Bucket) (parts : List (List (Host × Event))) : Prop :=
  ledger.map Bucket.count = parts.map fun part => countedBy (part.map Prod.snd)

/-- An event that is credited to the last bucket belongs to the last part. -/
theorem Divided.credit (h : Divided (closed ++ [b]) parts) (x : Host × Event) :
    ∃ parts', parts'.flatten = parts.flatten ++ [x] ∧
      Divided (closed ++ [{ b with count := b.count + x.2.counted?.getD 0 }]) parts' := by
  rw [Divided, List.map_append, List.map_singleton] at h
  obtain ⟨early, lastPart, rfl, hearly, hlast⟩ := List.map_eq_append_iff.1 h.symm
  obtain ⟨part, rfl, hpart⟩ := List.map_eq_singleton_iff.1 hlast
  refine ⟨early ++ [part ++ [x]], by simp, ?_⟩
  rw [Divided, List.map_append, List.map_append, hearly, List.map_singleton, List.map_singleton,
    List.map_append, countedBy_append, hpart, List.map_singleton, countedBy_cons]
  simp

/-- Buckets that are opened belong to parts without events. -/
theorem Divided.append_opened (h : Divided ledger parts) {opened : List Bucket}
    (hopened : ∀ b ∈ opened, b.count = 0) :
    ∃ parts', parts'.flatten = parts.flatten ∧ Divided (ledger ++ opened) parts' := by
  refine ⟨parts ++ opened.map fun _ => [], ?_, ?_⟩
  · simp
  · rw [Divided, List.map_append, List.map_append, h, List.map_map]
    exact congrArg _ (List.map_congr_left hopened)

theorem ledger_remove (c : Counter) (s : CapabilitySet) :
    ∃ opened : List Bucket, (∀ b ∈ opened, b.count = 0) ∧
      (c.remove s).ledger = c.ledger ++ opened := by
  rw [remove]
  split
  · exact ⟨[], by simp, (List.append_nil _).symm⟩
  · exact ⟨[⟨_, _, 0⟩], by simp, rfl⟩

theorem ledger_observe (c : Counter) (i : Identity) :
    (c.observe i).ledger = c.ledger ++ if i = c.identity then [] else [⟨c.set, i, 0⟩] := by
  rw [observe]
  split
  · exact (List.append_nil _).symm
  · rfl

/-- What an event counts comes into the bucket that is current once the counter has been set up. -/
theorem divided_of_counted (h : (c.ensure live).Running) (hcounted : e.counted? = some n)
    (hparts : Divided (c.ensure live).ledger parts) :
    ∃ parts', parts'.flatten = parts.flatten ++ [(live, e)] ∧
      Divided (c.apply live e).ledger parts' := by
  obtain ⟨closed, m, hledger, hcredit⟩ := h.ledger_credit n
  rw [hledger] at hparts
  obtain ⟨counted, hflatten, hdivided⟩ := hparts.credit (live, e)
  rw [hcounted] at hdivided
  -- Some events open a bucket afterwards.
  have hopen : ∀ ledger opened : List Bucket, (∀ b ∈ opened, b.count = 0) →
      ledger = (c.count live n).ledger ++ opened →
      ∃ parts', parts'.flatten = parts.flatten ++ [(live, e)] ∧ Divided ledger parts' := by
    rintro _ opened hopened rfl
    rw [← hflatten, count, hcredit]
    exact hdivided.append_opened hopened
  cases e with
  | start s => cases hcounted
  | count m =>
    obtain rfl := Option.some.inj hcounted
    exact hopen _ [] (by simp) (List.append_nil _).symm
  | drop m s =>
    obtain rfl := Option.some.inj hcounted
    obtain ⟨opened, hopened, hledger⟩ := (c.count live m).ledger_remove s
    exact hopen _ opened hopened hledger
  | identityChanged m =>
    obtain rfl := Option.some.inj hcounted
    exact hopen _ _ (by split <;> simp) ((c.count live m).ledger_observe live.identity)
  | announceFork => cases hcounted

/-- After a reset the buckets hold what it counts itself. -/
theorem divided_of_resets (h : e.Resets c.owner? live) :
    ∃ parts, parts.flatten = [(live, e)] ∧ Divided (c.apply live e).ledger parts := by
  rcases h with hrequest | ⟨hcounts, hother⟩
  · cases e with
    | start s => exact ⟨[[(live, .start s)]], rfl, rfl⟩
    | _ => cases hrequest
  · obtain ⟨n, hn⟩ := Option.isSome_iff_exists.1 hcounts
    obtain ⟨s, hs⟩ := ensure_of_other hother
    have hparts : Divided (c.ensure live).ledger [[]] := by
      rw [hs]
      rfl
    exact divided_of_counted (hs ▸ running_start c live s) hn hparts

/-- Any other event is added to the parts. -/
theorem divided_of_not_resets (h : c.Running) (hquiet : ¬e.Resets c.owner? live)
    (hparts : Divided c.ledger parts) :
    ∃ parts', parts'.flatten = parts.flatten ++ [(live, e)] ∧
      Divided (c.apply live e).ledger parts' := by
  cases hcounted : e.counted? with
  | some n =>
    have howner : c.owner? = some live.pid := by
      by_contra hother
      exact hquiet (Or.inr ⟨by simp [hcounted], hother⟩)
    have hensure := ensure_of_owner howner
    exact divided_of_counted (by rwa [hensure]) hcounted (by rwa [hensure])
  | none =>
    cases e with
    | start s => exact absurd (Or.inl rfl) hquiet
    | announceFork =>
      obtain ⟨closed, m, hledger⟩ := h.last
      rw [hledger] at hparts
      show ∃ parts', _ ∧ Divided c.ledger parts'
      rw [hledger]
      exact hparts.credit (live, .announceFork)
    | _ => cases hcounted

theorem running_of_owner? (h : c.Idle ∨ c.Running) (howner : c.owner?.isSome) : c.Running := by
  rcases h with ⟨n, rfl⟩ | h
  · cases howner
  · exact h

theorem divided_of_quiet (h : c.Running) (hquiet : ∀ x ∈ events, ¬x.2.Resets c.owner? x.1)
    (hparts : Divided c.ledger parts) :
    ∃ parts', parts'.flatten = parts.flatten ++ events ∧
      Divided (c.run events).ledger parts' := by
  induction events generalizing c parts with
  | nil => exact ⟨parts, (List.append_nil _).symm, hparts⟩
  | cons x events ih =>
    obtain ⟨hx, hevents⟩ := List.forall_mem_cons.1 hquiet
    obtain ⟨parts', hflatten, hdivided⟩ := divided_of_not_resets h hx hparts
    rw [← (apply_of_not_resets hx).1] at hevents
    have hrunning : (c.apply x.1 x.2).Running := by
      refine running_of_owner? (idle_or_running_apply (Or.inr h) x.1 x.2) ?_
      rw [(apply_of_not_resets hx).1, owner?, if_pos h.started]
      rfl
    obtain ⟨parts'', hflatten', hdivided'⟩ := ih hrunning hevents hdivided
    refine ⟨parts'', ?_, hdivided'⟩
    rw [hflatten', hflatten, List.append_assoc]
    rfl

/-- The buckets hold what has been counted from the last reset on. -/
theorem divided_of_last_reset {before after : List (Host × Event)}
    (hreset : e.Resets (resetPid? before) live)
    (hquiet : ∀ x ∈ after, ¬x.2.Resets (some live.pid) x.1) :
    ∃ parts, parts.flatten = (live, e) :: after ∧
      Divided (fresh.run (before ++ (live, e) :: after)).ledger parts := by
  rw [← owner?_run] at hreset
  obtain ⟨parts, hflatten, hdivided⟩ := divided_of_resets hreset
  have howner := (apply_of_resets hreset).1
  have hrunning : ((fresh.run before).apply live e).Running := by
    refine running_of_owner? (idle_or_running_apply ?_ live e) (by rw [howner]; rfl)
    exact idle_or_running_run (Or.inl idle_fresh) before
  rw [← howner] at hquiet
  obtain ⟨parts', hflatten', hdivided'⟩ := divided_of_quiet hrunning hquiet hdivided
  rw [hflatten] at hflatten'
  rw [run_append]
  exact ⟨parts', hflatten', hdivided'⟩

/-! ## What a report shows -/

theorem idle_of_quiet (h : ∀ x ∈ events, ¬x.2.Resets none x.1) : (fresh.run events).Idle := by
  rcases idle_or_running_run (Or.inl idle_fresh) events with hidle | hrunning
  · exact hidle
  · have howner := (run_of_quiet (c := fresh) h).1
    rw [owner?, if_pos hrunning.started] at howner
    cases howner

/-- From a reset on, all that is counted until the next one is counted in its process. -/
theorem pid_of_counted {after : List (Host × Event)}
    (hquiet : ∀ x ∈ after, ¬x.2.Resets (some live.pid) x.1) :
    ∀ x ∈ (live, e) :: after, x.2.counted?.isSome → x.1.pid = live.pid := by
  intro x hx hcounts
  rcases List.mem_cons.1 hx with rfl | hx
  · rfl
  · by_contra hother
    exact hquiet x hx (Or.inr ⟨hcounts, fun h => hother (Option.some.inj h).symm⟩)

/-- What was counted in one process was counted in another one just if the two are the same or
nothing was counted. -/
theorem pid_of_counted_iff {pid : UInt32}
    (h : ∀ x ∈ events, x.2.counted?.isSome → x.1.pid = pid) (pid' : UInt32) :
    (∀ x ∈ events, x.2.counted?.isSome → x.1.pid = pid') ↔
      pid' = pid ∨ ∀ x ∈ events, x.2.counted? = none := by
  constructor
  · intro hown
    by_cases hsame : pid' = pid
    · exact Or.inl hsame
    · refine Or.inr fun x hx => ?_
      by_contra hcounts
      rw [← Ne, ← Option.isSome_iff_ne_none] at hcounts
      exact hsame ((hown x hx hcounts).symm.trans (h x hx hcounts))
  · rintro (hsame | hnothing) x hx hcounts
    · rw [hsame]
      exact h x hx hcounts
    · rw [hnothing x hx] at hcounts
      cases hcounts

/-- A report shows, under the process that asks for it, what has been counted from the last reset
on. All of that was counted in the process that set the counter up, and each bucket holds what one
stretch of it counts. So the report shows nothing of another process just if the process that asks
is the one that set the counter up, or nothing has been counted. -/
theorem report_of_history (history : List (Host × Event)) (live : Host) :
    let c := fresh.run history
    ∃ parts : List (List (Host × Event)),
      ((∀ x ∈ history, ¬x.2.Resets none x.1) ∧ parts = [] ∨
        ∃ before host e after, history = before ++ (host, e) :: after ∧
          parts.flatten = (host, e) :: after ∧ e.Resets (resetPid? before) host ∧
          ∀ x ∈ after, ¬x.2.Resets (some host.pid) x.1) ∧
      c.report live = reportText live.pid c.forks c.total c.ledger ∧
      c.total = countedBy (parts.flatten.map Prod.snd) ∧
      c.ledger.map Bucket.count = parts.map (fun part => countedBy (part.map Prod.snd)) ∧
      (∀ x ∈ parts.flatten, x.2.counted?.isSome → x.1.pid = c.pid) ∧
      ((∀ x ∈ parts.flatten, x.2.counted?.isSome → x.1.pid = live.pid) ↔
        live.pid = c.pid ∨ ∀ x ∈ parts.flatten, x.2.counted? = none) := by
  intro c
  rcases exists_last_reset history with hnone | ⟨before, host, e, after, rfl, hreset, hquiet⟩
  · -- Nothing has been counted, and there is no bucket.
    obtain ⟨n, hc⟩ : c.Idle := idle_of_quiet hnone
    refine ⟨[], Or.inl ⟨hnone, rfl⟩, rfl, ?_, ?_, by simp, by simp⟩ <;> rw [hc] <;> rfl
  · obtain ⟨parts, hflatten, hdivided⟩ := divided_of_last_reset hreset hquiet
    obtain ⟨howner, htotal⟩ := run_of_last_reset hreset hquiet
    have hcounted : ∀ x ∈ parts.flatten, x.2.counted?.isSome → x.1.pid = c.pid := by
      rw [hflatten, pid_of_owner? howner]
      exact pid_of_counted hquiet
    refine ⟨parts, Or.inr ⟨before, host, e, after, rfl, hflatten, hreset, hquiet⟩, rfl, ?_,
      hdivided, hcounted, pid_of_counted_iff hcounted live.pid⟩
    rw [htotal, hflatten]
    rfl

/-- A total and buckets are made up of what was counted in one process: some events of the history,
all of them in that process, can be dealt out to the buckets. -/
def MadeUpOf (history : List (Host × Event)) (pid : UInt32) (total : Nat) (buckets : List Bucket) :
    Prop :=
  ∃ parts : List (List (Host × Event)), parts.flatten.Sublist history ∧
    (∀ x ∈ parts.flatten, x.1.pid = pid) ∧ Divided buckets parts ∧
    total = countedBy (parts.flatten.map Prod.snd)

/-- A process that asks for a report before it has counted anything is shown what its parent has
counted. -/
theorem not_report_madeUpOf :
    ¬∀ (history : List (Host × Event)) (live : Host) (total : Nat) (buckets : List Bucket),
      (fresh.run history).report live =
        reportText live.pid (fresh.run history).forks total buckets →
      MadeUpOf history live.pid total buckets := by
  intro h
  obtain ⟨parts, hsublist, hpid, -, htotal⟩ := h [({ pid := 100 }, .start ∅),
    ({ pid := 100 }, .count 5), ({ pid := 100 }, .announceFork)] { pid := 200 } 5 [⟨∅, {}, 5⟩] rfl
  have hnil : parts.flatten = [] := by
    rw [List.eq_nil_iff_forall_not_mem]
    intro x hx
    have hparent : x.1.pid = 100 := by
      have hmem := hsublist.subset hx
      simp only [List.mem_cons, List.not_mem_nil, or_false] at hmem
      rcases hmem with rfl | rfl | rfl <;> rfl
    rw [hpid x hx] at hparent
    cases hparent
  rw [hnil] at htotal
  cases htotal

/-! ## Changes of identity -/

theorem identity_observe (c : Counter) (i : Identity) : (c.observe i).identity = i := by
  rw [observe]
  split
  · next hsame => exact hsame.symm
  · rfl

/-- A counter of the same process credits the bucket of the identity that it has seen, and opens one
for the identity that it sees now if that is another. -/
theorem Running.ledger_identityChanged (h : c.Running) (hpid : live.pid = c.pid) (n : Nat) :
    ∃ closed m, c.ledger = closed ++ [⟨c.set, c.identity, m⟩] ∧
      (c.identityChanged live n).ledger = closed ++ ⟨c.set, c.identity, m + n⟩ ::
        if live.identity = c.identity then [] else [⟨c.set, live.identity, 0⟩] := by
  obtain ⟨closed, m, hledger, hcredit⟩ := h.ledger_credit n
  have hensure : c.ensure live = c :=
    ensure_of_owner (by rw [owner?, if_pos h.started, hpid])
  refine ⟨closed, m, hledger, ?_⟩
  rw [identityChanged, ledger_observe, count, hensure, hcredit, List.append_assoc]
  rfl

/-- A counter of another process is set up anew under the identity of now, and credits that. -/
theorem Running.ledger_identityChanged_of_ne (h : c.Running) (hpid : live.pid ≠ c.pid) (n : Nat) :
    (c.identityChanged live n).ledger = [⟨c.set, live.identity, n⟩] := by
  have hensure : c.ensure live = c.start live c.set := by
    rw [ensure, if_neg (by simp [h.started]), if_pos hpid]
  have hcount : (c.count live n).ledger = [⟨c.set, live.identity, n⟩] := by
    rw [count, hensure]
    show [Bucket.mk c.set live.identity (0 + n)] = _
    rw [Nat.zero_add]
  have hidentity : (c.count live n).identity = live.identity := by
    rw [count, hensure]
    rfl
  rw [identityChanged, ledger_observe, if_pos hidentity.symm, List.append_nil, hcount]

/-- What is counted when the identity may have changed. It is credited to the identity that it ran
under, and a bucket is opened for the identity of now just if that is another, unless the counter
was set up by another process and the identity has changed since. In that case all is credited to
the identity of now. -/
theorem identityChanged_of_history (history : List (Host × Event)) (live : Host) (n : Nat)
    (hstarted : (fresh.run history).started = true) :
    let c := fresh.run history
    let c' := c.identityChanged live n
    c'.identity = live.identity ∧
      (live.pid = c.pid → ∃ closed m, c.ledger = closed ++ [⟨c.set, c.identity, m⟩] ∧
        c'.ledger = closed ++ ⟨c.set, c.identity, m + n⟩ ::
          if live.identity = c.identity then [] else [⟨c.set, live.identity, 0⟩]) ∧
      (live.pid ≠ c.pid → c'.ledger = [⟨c.set, live.identity, n⟩]) ∧
      ((∃ closed m, c'.ledger = closed ++ ⟨c.set, c.identity, m + n⟩ ::
          if live.identity = c.identity then [] else [⟨c.set, live.identity, 0⟩]) ↔
        live.pid = c.pid ∨ live.identity = c.identity) := by
  intro c c'
  have hrunning : c.Running := running_of_owner? (idle_or_running_run (Or.inl idle_fresh) history)
    (by rw [owner?, if_pos hstarted]; rfl)
  have hother := fun hpid : live.pid ≠ c.pid => hrunning.ledger_identityChanged_of_ne hpid n
  refine ⟨identity_observe .., fun hpid => hrunning.ledger_identityChanged hpid n, hother, ?_, ?_⟩
  · rintro ⟨closed, m, hledger⟩
    by_contra hneither
    rw [not_or] at hneither
    -- The counter has one bucket, and it would have to have two.
    rw [hother hneither.1, if_neg hneither.2] at hledger
    have hlength := congrArg List.length hledger
    simp at hlength
  · intro heither
    by_cases hpid : live.pid = c.pid
    · obtain ⟨closed, m, -, hledger⟩ := hrunning.ledger_identityChanged hpid n
      exact ⟨closed, m, hledger⟩
    · have hsame := heither.resolve_left hpid
      refine ⟨[], 0, ?_⟩
      rw [hother hpid, if_pos hsame, hsame, Nat.zero_add]
      rfl

/-- A process counts two operations as the superuser and is about to fork. -/
def superuserHistory : List (Host × Event) :=
  [({ pid := 100 }, .start ∅), ({ pid := 100 }, .count 2), ({ pid := 100 }, .announceFork)]

/-- The identity of an ordinary user. -/
def ordinaryUser : Identity where
  ruid := 1000
  euid := 1000
  suid := 1000

theorem identityChanged_of_history_sample :
    (fresh.run superuserHistory).started = true ∧
      (∃ closed m, ((fresh.run superuserHistory).identityChanged ⟨100, ordinaryUser⟩ 3).ledger =
        closed ++ [⟨∅, {}, m + 3⟩, ⟨∅, ordinaryUser, 0⟩]) ∧
      ((fresh.run superuserHistory).identityChanged ⟨200, ordinaryUser⟩ 3).ledger =
        [⟨∅, ordinaryUser, 3⟩] := by
  have hstarted : (fresh.run superuserHistory).started = true := rfl
  refine ⟨hstarted, ?_, ?_⟩
  · obtain ⟨closed, m, -, hledger⟩ :=
      (identityChanged_of_history superuserHistory ⟨100, ordinaryUser⟩ 3 hstarted).2.1 rfl
    exact ⟨closed, m, hledger⟩
  · exact (identityChanged_of_history superuserHistory ⟨200, ordinaryUser⟩ 3 hstarted).2.2.1
      (by decide)

/-- What a process did between its fork and its change of identity is credited to the new
identity. -/
theorem not_identityChanged_credits : ¬∀ (history : List (Host × Event)) (live : Host) (n : Nat),
    (fresh.run history).started = true →
      ∃ b ∈ ((fresh.run history).identityChanged live n).ledger,
        b.identity = (fresh.run history).identity ∧ n ≤ b.count := by
  intro h
  obtain ⟨b, hb, hidentity, -⟩ := h superuserHistory ⟨200, ordinaryUser⟩ 3 rfl
  have hledger : ((fresh.run superuserHistory).identityChanged ⟨200, ordinaryUser⟩ 3).ledger =
      [⟨∅, ordinaryUser, 3⟩] := rfl
  rw [hledger, List.mem_singleton] at hb
  rw [hb] at hidentity
  exact absurd hidentity (by decide)

end Counter

end LeastPrivilege
