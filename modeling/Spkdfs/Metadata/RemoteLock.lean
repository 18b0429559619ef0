import Spkdfs.Node.System

/-!
# The remote write lock

A client that writes a file holds the lock of its path: it gets it with a `put`,
or with a write open, where `SDK::write_lock` sends an `update_lock`.  The lock
is only a deadline in the record, without an owner.  Of the requests that are
about it only `put` tests it, and it does so when it is checked, while the lock
is set when the entry is applied.  An `update_lock` sets the deadline without a
test, and a `put_ok` of any client clears it.

`LockState` adds to the namenode what the clients think: who holds the path, and
until when.  A client holds the path from the moment one of its requests replies
success, until it sends a `put_ok` or closes the path.

`LockRespected` is what the clients would have to add: to send a write open or a
`put_ok` only when nobody else holds the path, and not to overlap the requests
of two clients with an acquisition.  Under it the deadline in the record is the
deadline of the holder, and the test in `put` does the rest.
-/

namespace Spkdfs

open RocksDB

/-- A client that holds the path, and the last deadline that it has set. -/
structure Hold where
  client : ℕ
  deadline : UInt64
  deriving DecidableEq

/-- The requests about the lock of one path. -/
structure LockState where
  sys : Sys
  /-- The clock of the namenode. -/
  clock : UInt64
  /-- The clients that have acquired the path and have neither sent a `put_ok` nor
  closed it since. -/
  held : List Hold

/-- What can happen next. -/
inductive LockEvent
  | tick (now : UInt64)
  | send (client : ℕ) (op : Op)
  | propose (i : ℕ)
  | apply
  | close (client : ℕ)
  deriving DecidableEq

/-- Drop the hold of a client. -/
def release (client : ℕ) (held : List Hold) : List Hold :=
  held.filter fun h => h.client ≠ client

theorem mem_release {client : ℕ} {held : List Hold} {h : Hold} :
    h ∈ release client held ↔ h ∈ held ∧ h.client ≠ client := by
  simp [release]

namespace LockState

def init (db : Store) (clock : UInt64) : LockState := ⟨.init db, clock, []⟩

/-- The holds after a request is sent: a `put_ok` gives the path up. -/
def heldAfterSend (s : LockState) (client : ℕ) (op : Op) : List Hold :=
  if op.opType = .opPutok then release client s.held else s.held

/-- The holds after a request has replied success: a `put` and a write open
acquire the path, up to the deadline that they have written. -/
def heldAfterApply (s : LockState) (t : Task) : List Hold :=
  if t.entry.type = .opPut then ⟨t.client, t.entry.inode.ddlLock⟩ :: release t.client s.held
  else s.held

/-- One step of the requests about the path `p`.  The clock never goes back, and
a handler reads it when it makes its checks. -/
def step (p : FullPath) (s : LockState) : LockEvent → Option LockState
  | .tick now => if s.clock ≤ now then some { s with clock := now } else none
  | .send client op =>
    if op.target = p ∧ (op.opType = .opPut ∨ op.opType = .opPutok) then
      (s.sys.step (.prepare client ⟨op, s.clock⟩)).map fun sys =>
        { s with sys := sys, held := s.heldAfterSend client op }
    else none
  | .propose i => (s.sys.step (.propose i)).map fun sys => { s with sys := sys }
  | .apply =>
    match s.sys.log with
    | [] => none
    | t :: _ => (s.sys.step .apply).map fun sys => { s with sys := sys, held := s.heldAfterApply t }
  | .close client => some { s with held := release client s.held }

/-- An applied acquisition meets no request of another client and no `put_ok` in
flight. -/
def AcquiresAlone (_ : Store) (t : Task) (others : List Task) : Prop :=
  t.entry.type = .opPut → ∀ u ∈ others, u.client = t.client ∧ u.entry.type ≠ .opPutok

instance (db : Store) (t : Task) (others : List Task) : Decidable (AcquiresAlone db t others) :=
  inferInstanceAs (Decidable (_ → _))

/-- A write open and a `put_ok` are sent only while no other client holds the
path, and an acquisition is applied only when no request of another client and
no `put_ok` is in flight. -/
def LockRespected (s : LockState) : LockEvent → Prop
  | .send client op =>
    op.isPut = false → ∀ h ∈ s.held, h.client ≠ client → h.deadline < s.clock
  | .apply => s.sys.OnApply AcquiresAlone .apply
  | .tick _ | .propose _ | .close _ => True

instance (s : LockState) (ev : LockEvent) : Decidable (s.LockRespected ev) :=
  match ev with
  | .send _ _ => inferInstanceAs (Decidable (_ → _))
  | .apply => inferInstanceAs (Decidable (s.sys.OnApply AcquiresAlone .apply))
  | .tick _ | .propose _ | .close _ => inferInstanceAs (Decidable True)

/-- Every request in flight is about the lock of `p`.  While a client holds the
path, the record has its deadline, and every request in flight is an acquisition
of that client. -/
structure Invariant (p : FullPath) (s : LockState) : Prop where
  about : ∀ u ∈ s.sys.inFlight, u.entry.path = p ∧ (u.entry.type = .opPut ∨ u.entry.type = .opPutok)
  live : ∀ h ∈ s.held, s.clock ≤ h.deadline →
    (recordAt s.sys.db p).ddlLock = h.deadline ∧
      ∀ u ∈ s.sys.inFlight, u.client = h.client ∧ u.entry.type ≠ .opPutok

theorem invariant_init (p : FullPath) (db : Store) (clock : UInt64) :
    (init db clock).Invariant p where
  about := by simp [init, Sys.init, Sys.inFlight]
  live := by simp [init]

/-- The test of the lock, which `put` makes. -/
theorem ddlLock_lt_of_isPut {t : Task} {db : Store} (ht : t.CheckedIn db)
    (hput : t.request.op.isPut = true) :
    (recordAt db t.entry.path).ddlLock < t.request.now := by
  rw [t.entry_path]
  unfold Task.CheckedIn at ht
  cases hop : t.request.op with
  | put path storageType =>
    rw [hop] at ht
    exact (prepare_put_eq_ok.mp ht).2.2.1
  | mkdir path => simp [hop, Op.isPut] at hput
  | rm path => simp [hop, Op.isPut] at hput
  | putOk path filesize sub => simp [hop, Op.isPut] at hput
  | updateLock path => simp [hop, Op.isPut] at hput

/-- While a client holds the path, only its own requests are admitted: the others
may send no write open and no `put_ok`, and the deadline in the record makes the
handler refuse their `put`. -/
theorem client_eq_of_live {p : FullPath} {s : LockState} (hs : s.Invariant p) {t : Task}
    (hpath : t.entry.path = p) (hnow : t.request.now = s.clock) (ht : t.CheckedIn s.sys.db)
    (hok : s.LockRespected (.send t.client t.request.op)) {h : Hold} (hh : h ∈ s.held)
    (hlive : s.clock ≤ h.deadline) : t.client = h.client := by
  by_contra hne
  have hlt : h.deadline < s.clock := by
    cases hput : t.request.op.isPut with
    | true =>
      have htest := ddlLock_lt_of_isPut ht hput
      rwa [hpath, (hs.live h hh hlive).1, hnow] at htest
    | false => exact hok hput h hh (Ne.symm hne)
  exact UInt64.not_le.mpr hlt hlive

theorem invariant_send {p : FullPath} {s s' : LockState} {client : ℕ} {op : Op}
    (hs : s.Invariant p) (hok : s.LockRespected (.send client op))
    (h : s.step p (.send client op) = some s') : s'.Invariant p := by
  simp only [step] at h
  split at h
  · rename_i hcond
    obtain ⟨sys, hsys, rfl⟩ := Option.map_eq_some_iff.mp h
    have hheld : ∀ h ∈ s.heldAfterSend client op,
        h ∈ s.held ∧ (op.opType = .opPutok → h.client ≠ client) := by
      intro h hh
      unfold heldAfterSend at hh
      split at hh
      · exact ⟨(mem_release.mp hh).1, fun _ => (mem_release.mp hh).2⟩
      · rename_i hne
        exact ⟨hh, fun heq => absurd heq hne⟩
    rcases Sys.step_cases hsys with rfl | ⟨t, hev, ht, rfl⟩ | ⟨i, hev, _⟩ | ⟨t, rest, db, hev, _⟩
    · exact ⟨hs.about, fun h hh hlive => hs.live h (hheld h hh).1 hlive⟩
    · simp only [Event.prepare.injEq] at hev
      obtain ⟨rfl, hreq⟩ := hev
      have hop : t.request.op = op := by rw [← hreq]
      subst hop
      have hpath : t.entry.path = p := by rw [t.entry_path, hcond.1]
      have hmem : ∀ u ∈ (s.sys.prepared ++ [t]) ++ s.sys.log, u = t ∨ u ∈ s.sys.inFlight := by
        intro u hu
        simp only [List.mem_append, List.mem_singleton] at hu
        rcases hu with (hu | hu) | hu
        · exact Or.inr (List.mem_append_left _ hu)
        · exact Or.inl hu
        · exact Or.inr (List.mem_append_right _ hu)
      constructor
      · intro u hu
        rcases hmem u hu with rfl | hu
        · exact ⟨hpath, u.entry_type ▸ hcond.2⟩
        · exact hs.about u hu
      · intro hold hhold hlive
        obtain ⟨hbefore, hsent⟩ := hheld hold hhold
        refine ⟨(hs.live hold hbefore hlive).1, fun u hu => ?_⟩
        rcases hmem u hu with rfl | hu
        · have hclient := client_eq_of_live hs hpath (by rw [← hreq]) ht hok hbefore hlive
          refine ⟨hclient, fun hty => hsent ?_ hclient.symm⟩
          rw [← u.entry_type, hty]
        · exact (hs.live hold hbefore hlive).2 u hu
    · cases hev
    · cases hev
  · cases h

theorem invariant_apply {p : FullPath} {s s' : LockState} (hs : s.Invariant p)
    (hok : s.LockRespected .apply) (h : s.step p .apply = some s') : s'.Invariant p := by
  cases hlog : s.sys.log with
  | nil => simp [step, hlog] at h
  | cons t rest =>
    simp only [step, hlog] at h
    obtain ⟨sys, hsys, rfl⟩ := Option.map_eq_some_iff.mp h
    obtain ⟨db, hdb, rfl⟩ := Sys.step_apply_cons hlog hsys
    have hhead := Sys.head_mem_inFlight hlog
    obtain ⟨hpath, hty⟩ := hs.about t hhead
    refine ⟨fun u hu => hs.about u (Sys.mem_inFlight_of_mem_rest hlog hu), fun h hh hlive => ?_⟩
    unfold heldAfterApply at hh
    split at hh
    · rename_i hput
      rcases List.mem_cons.mp hh with rfl | hh
      · refine ⟨?_, hok t rest hlog hput⟩
        have hrec := recordAt_applyEntry_self hdb
        rw [hpath] at hrec
        rw [hrec, Entry.written, hput]
      · obtain ⟨hh, hne⟩ := mem_release.mp hh
        exact absurd ((hs.live h hh hlive).2 t hhead).1.symm hne
    · rename_i hput
      exact absurd (hty.resolve_left hput) ((hs.live h hh hlive).2 t hhead).2

theorem invariant_step {p : FullPath} {s s' : LockState} {ev : LockEvent} (hs : s.Invariant p)
    (hok : s.LockRespected ev) (h : s.step p ev = some s') : s'.Invariant p := by
  cases ev with
  | tick now =>
    simp only [step] at h
    split at h
    · rename_i hle
      obtain rfl := Option.some.inj h
      exact ⟨hs.about, fun h hh hlive => hs.live h hh (UInt64.le_trans hle hlive)⟩
    · cases h
  | send client op => exact invariant_send hs hok h
  | propose i =>
    obtain ⟨sys, hsys, rfl⟩ := Option.map_eq_some_iff.mp h
    rcases Sys.step_cases hsys with rfl | ⟨t, hev, _⟩ | ⟨j, _, hdb, _, hperm⟩ |
      ⟨t, rest, db, hev, _⟩
    · exact hs
    · cases hev
    · refine ⟨fun u hu => hs.about u (hperm.mem_iff.mp hu), fun h hh hlive => ?_⟩
      obtain ⟨hddl, hmine⟩ := hs.live h hh hlive
      exact ⟨by rw [hdb]; exact hddl, fun u hu => hmine u (hperm.mem_iff.mp hu)⟩
    · cases hev
  | apply => exact invariant_apply hs hok h
  | close client =>
    obtain rfl := Option.some.inj h
    exact ⟨hs.about, fun h hh hlive => hs.live h (mem_release.mp hh).1 hlive⟩

end LockState

/-- In every run in which the clients respect the lock, an entry that is applied
belongs to the client that holds the path: as long as the clock has not passed
the deadline of a client, no `put` and no write open of another client replies
success, and no `put_ok` of another client is applied. -/
theorem lock_exclusive_of_lockRespected {p : FullPath} {db : Store} {clock : UInt64} {s : LockState}
    (h : Runs.Reach (LockState.step p) LockState.LockRespected (.init db clock) s) {t : Task}
    {rest : List Task} (hlog : s.sys.log = t :: rest) {hold : Hold} (hhold : hold ∈ s.held)
    (hother : hold.client ≠ t.client) : hold.deadline < s.clock := by
  have hinv : s.Invariant p :=
    h.invariant (LockState.invariant_init p db clock)
      fun _ _ _ _ hs hok hstep => LockState.invariant_step hs hok hstep
  by_contra hlive
  have hlive' : s.clock ≤ hold.deadline := UInt64.not_lt.mp hlive
  exact hother ((hinv.live hold hhold hlive').2 t (Sys.head_mem_inFlight hlog)).1.symm

/-- The second client writes after the deadline of the first one. -/
def expiredEvents : List LockEvent :=
  [.send 0 (.put "/f" "RE<3,16>"), .propose 0, .apply, .send 0 (.updateLock "/f"), .propose 0,
    .apply, .tick 120, .send 1 (.put "/f" "RE<3,16>"), .tick 161, .send 1 (.put "/f" "RE<3,16>"),
    .propose 0]

/-- The `put` that is about to be applied at the end of `expiredEvents` is the one
that was sent after the deadline. -/
theorem lock_exclusive_expiredEvents :
    ∃ s t rest hold,
      Runs.Reach (LockState.step (.set "/f")) LockState.LockRespected (.init KeyedMap.empty 100) s ∧
      s.sys.log = t :: rest ∧ hold ∈ s.held ∧ hold.client ≠ t.client ∧ hold.deadline < s.clock := by
  have hrun : ∃ s, Runs.Reach (LockState.step (.set "/f")) LockState.LockRespected
      (.init KeyedMap.empty 100) s ∧
      (s.sys.log.head?.any fun t => t.client = 1 ∧ (⟨0, 160⟩ : Hold) ∈ s.held) = true :=
    Runs.exists_reach_of_any_guarded expiredEvents (by decide +kernel)
  obtain ⟨s, hreach, htest⟩ := hrun
  obtain ⟨t, rest, hlog, hrest⟩ := Sys.exists_head_of_any htest
  obtain ⟨hclient, hhold⟩ := of_decide_eq_true hrest
  have hother : (⟨0, 160⟩ : Hold).client ≠ t.client := by
    rw [hclient]
    decide
  exact ⟨s, t, rest, _, hreach, hlog, hhold, hother,
    lock_exclusive_of_lockRespected hreach hlog hhold hother⟩

/-- The second client opens the path for writing while the first one holds it. -/
def stolenEvents : List LockEvent :=
  [.send 0 (.put "/f" "RE<3,16>"), .propose 0, .apply, .send 1 (.updateLock "/f"), .propose 0]

/-- In some run a write open of another client is about to reply success while the
lock is held. -/
theorem not_lock_exclusive_stolenEvents :
    ¬ ∀ s, Runs.Reachable (LockState.step (.set "/f")) (.init KeyedMap.empty 100) s →
      ∀ t rest, s.sys.log = t :: rest → ∀ hold ∈ s.held, hold.client ≠ t.client →
        hold.deadline < s.clock := by
  intro h
  have hrun : ∃ s, Runs.Reachable (LockState.step (.set "/f")) (.init KeyedMap.empty 100) s ∧
      (s.sys.log.head?.any fun t =>
        t.client = 1 ∧ (⟨0, 160⟩ : Hold) ∈ s.held ∧ s.clock = 100) = true :=
    Runs.exists_reachable_of_any stolenEvents (by decide +kernel)
  obtain ⟨s, hreach, htest⟩ := hrun
  obtain ⟨t, rest, hlog, hrest⟩ := Sys.exists_head_of_any htest
  obtain ⟨hclient, hhold, hclock⟩ := of_decide_eq_true hrest
  have hlt := h s hreach t rest hlog _ hhold (by rw [hclient]; decide)
  rw [hclock] at hlt
  exact absurd hlt (by decide)

end Spkdfs
