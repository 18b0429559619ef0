import Spkdfs.Node.System

/-!
# The lock refresh

`update_lock` is meant to move the deadline of a lock.  Its handler reads the
whole record of the path, and its entry is an `OP_PUT`, which writes the whole
record back when it is applied.  An entry that was applied in between is undone
by it.  `internal_put_ok` reads the record again when it is applied; an
`OP_PUT` does not.

`content` is a record without its lock.  `content_recordAt_applyEntry` says when
an entry keeps the content of a path, and with that the refresh is harmless as
long as no entry that changes the content of its path comes between its read
and its apply.
-/

namespace Spkdfs

open RocksDB

/-- The record without its lock. -/
def content (i : Inode) : Inode := { i with ddlLock := 0 }

theorem eq_of_content_eq {i j : Inode} (h : content i = content j) :
    i = { j with ddlLock := i.ddlLock } := by
  cases i
  cases j
  simpa [content] using h

@[simp] theorem content_updateDdlLock (i : Inode) (now : UInt64) :
    content (i.updateDdlLock now) = content i := rfl

/-- The entry leaves the record of `k` as it is, up to the lock. -/
def Entry.KeepsContent (e : Entry) (db : Store) (k : FullPath) : Prop :=
  (k = e.path → content (e.written db) = content (recordAt db k)) ∧
    (k ≠ e.path → k = e.path.parentPath → e.editSub (recordAt db k).sub = (recordAt db k).sub)

instance (e : Entry) (db : Store) (k : FullPath) : Decidable (e.KeepsContent db k) :=
  inferInstanceAs (Decidable (_ ∧ _))

theorem content_recordAt_applyEntry {db db' : Store} {e : Entry} (h : applyEntry db e = some db')
    (k : FullPath) : content (recordAt db' k) = content (recordAt db k) ↔ e.KeepsContent db k := by
  rw [recordAt_applyEntry h, Entry.KeepsContent]
  by_cases hk : k = e.path
  · simp [hk]
  · rw [if_neg hk]
    by_cases hp : k = e.path.parentPath
    · subst hp
      simp [hk, content]
    · simp [hk, hp]

/-- The entry of a refresh is the record that the handler has read, with a new
deadline. -/
theorem Task.CheckedIn.updateLock {db : Store} {t : Task} (ht : t.CheckedIn db)
    (hop : t.request.op.isUpdateLock = true) :
    t.entry = ⟨.opPut, (recordAt db t.entry.path).updateDdlLock t.request.now⟩ := by
  rw [t.entry_path]
  unfold Task.CheckedIn at ht
  cases hop' : t.request.op with
  | updateLock path =>
    rw [hop'] at ht
    exact (prepare_updateLock_eq_ok.mp ht).2
  | mkdir path => simp [hop', Op.isUpdateLock] at hop
  | rm path => simp [hop', Op.isUpdateLock] at hop
  | put path storageType => simp [hop', Op.isUpdateLock] at hop
  | putOk path filesize sub => simp [hop', Op.isUpdateLock] at hop

/-- The content of the path is still what the refresh has read. -/
def Task.Fresh (db : Store) (t : Task) : Prop :=
  t.request.op.isUpdateLock = true → content t.entry.inode = content (recordAt db t.entry.path)

/-- An applied entry keeps the content of every path whose refresh has been read
and is not applied yet. -/
def RefreshUndisturbed (db : Store) (t : Task) (others : List Task) : Prop :=
  ∀ u ∈ others, u.request.op.isUpdateLock = true → t.entry.KeepsContent db u.entry.path

instance (db : Store) (t : Task) (others : List Task) :
    Decidable (RefreshUndisturbed db t others) :=
  inferInstanceAs (Decidable (∀ u ∈ others, _))

theorem fresh_of_reach {db0 : Store} {s : Sys}
    (h : Runs.Reach Sys.step (Sys.OnApply RefreshUndisturbed) (.init db0) s) :
    ∀ t ∈ s.inFlight, t.Fresh s.db := by
  refine (Sys.inFlight_invariant (I := fun _ => True) trivial ?_ ?_ h).2
  · intro db t _ ht hop
    have hinode := congrArg Entry.inode (ht.updateLock hop)
    rw [hinode]
    exact content_updateDdlLock _ _
  · intro db t others db' hok h _ _
    refine ⟨trivial, fun q hq hfresh hop => ?_⟩
    rw [(content_recordAt_applyEntry h _).mpr (hok q hq hop)]
    exact hfresh hop

/-- What the apply of a refresh does, whatever has happened since its read. -/
theorem step_apply_updateLock {s : Sys} {t : Task} {rest : List Task} (hlog : s.log = t :: rest)
    (hop : t.request.op.isUpdateLock = true) :
    ∃ s', s.step .apply = some s' ∧
      recordAt s'.db t.entry.path =
        { t.entry.inode with ddlLock := t.request.now + lockRefreshInterval } ∧
      ∀ k, k ≠ t.entry.path → s'.db.get k = s.db.get k := by
  obtain ⟨db, hdb⟩ := t.checked
  have hentry : t.entry = ⟨.opPut, (recordAt db t.entry.path).updateDdlLock t.request.now⟩ :=
    Task.CheckedIn.updateLock hdb hop
  have happly : applyEntry s.db t.entry = some (s.db.put t.entry.inode) := by
    rw [hentry]
    rfl
  refine ⟨{ s with db := s.db.put t.entry.inode, log := rest, applied := s.applied ++ [t] },
    ?_, ?_, fun k hk => KeyedMap.get_put_ne s.db hk⟩
  · simp only [Sys.step, hlog, happly]
  · rw [recordAt_put, Entry.path, if_pos rfl, hentry]
    rfl

/-- In every run in which no entry changes the content of a path between the
read and the apply of a refresh of that path, the apply of a refresh sets the
lock of its path and changes nothing else.  An entry that does change it and
comes directly before the refresh is undone. -/
theorem updateLock_sets_lock_only {db0 : Store} {s : Sys}
    (h : Runs.Reach Sys.step (Sys.OnApply RefreshUndisturbed) (.init db0) s) :
    (∀ t rest, s.log = t :: rest → t.request.op.isUpdateLock = true →
      ∃ s', s.step .apply = some s' ∧
        recordAt s'.db t.entry.path =
          { recordAt s.db t.entry.path with ddlLock := t.request.now + lockRefreshInterval } ∧
        ∀ k, k ≠ t.entry.path → s'.db.get k = s.db.get k) ∧
    ∀ t u rest s₁ s₂, s.log = t :: u :: rest → u.request.op.isUpdateLock = true →
      ¬ t.entry.KeepsContent s.db u.entry.path →
      s.step .apply = some s₁ → s₁.step .apply = some s₂ →
      content (recordAt s₁.db u.entry.path) ≠ content (recordAt s.db u.entry.path) ∧
        content (recordAt s₂.db u.entry.path) = content (recordAt s.db u.entry.path) := by
  have hfresh := fresh_of_reach h
  constructor
  · intro t rest hlog hop
    obtain ⟨s', hstep, hrec, hframe⟩ := step_apply_updateLock hlog hop
    refine ⟨s', hstep, ?_, hframe⟩
    rw [hrec, eq_of_content_eq (hfresh t (Sys.head_mem_inFlight hlog) hop)]
  · intro t u rest s₁ s₂ hlog hop hchange h₁ h₂
    have hmem : u ∈ s.inFlight := by simp [Sys.inFlight, hlog]
    obtain ⟨db, hdb, rfl⟩ := Sys.step_apply_cons hlog h₁
    obtain ⟨s', hstep, hrec, _⟩ := step_apply_updateLock (s := { s with
      db := db, log := u :: rest, applied := s.applied ++ [t] }) rfl hop
    rw [hstep] at h₂
    obtain rfl := Option.some.inj h₂
    refine ⟨fun heq => hchange ((content_recordAt_applyEntry hdb _).mp heq), ?_⟩
    rw [hrec]
    exact hfresh u hmem hop

/-- A file whose lock is refreshed while the `put_ok` of another file in its
directory is under way. -/
def refreshEvents : List Event :=
  [.prepare 0 ⟨.put "/f" "RE<3,16>", 100⟩, .propose 0, .apply,
    .prepare 1 ⟨.put "/g" "RE<3,16>", 100⟩, .propose 0, .apply,
    .prepare 0 ⟨.updateLock "/f", 110⟩, .prepare 1 ⟨.putOk "/g" 5 ["x"], 110⟩,
    .propose 1, .apply, .propose 0]

/-- The refresh at the end of `refreshEvents` sets the lock of `/f` only. -/
theorem updateLock_refreshEvents :
    ∃ s s' : Sys, Runs.Reach Sys.step (Sys.OnApply RefreshUndisturbed) (.init KeyedMap.empty) s ∧
      s.step .apply = some s' ∧
      recordAt s'.db (.set "/f") = { recordAt s.db (.set "/f") with ddlLock := 170 } := by
  have hrun : ∃ s, Runs.Reach Sys.step (Sys.OnApply RefreshUndisturbed) (.init KeyedMap.empty) s ∧
      (s.log.head?.any fun t => t.request = ⟨.updateLock "/f", 110⟩) = true :=
    Runs.exists_reach_of_any_guarded refreshEvents (by decide +kernel)
  obtain ⟨s, hreach, htest⟩ := hrun
  obtain ⟨t, rest, hlog, hreq⟩ := Sys.exists_head_of_any htest
  have hreq' : t.request = ⟨.updateLock "/f", 110⟩ := of_decide_eq_true hreq
  obtain ⟨s', hstep, hrec, _⟩ :=
    (updateLock_sets_lock_only hreach).1 t rest hlog (by rw [hreq']; rfl)
  rw [t.entry_path, hreq'] at hrec
  exact ⟨s, s', hreach, hstep, hrec⟩

/-- The refresh is read before the `put_ok` of the same file is applied. -/
def lostPutOkEvents : List Event :=
  [.prepare 0 ⟨.put "/f" "RE<3,16>", 100⟩, .propose 0, .apply,
    .prepare 0 ⟨.updateLock "/f", 110⟩, .prepare 0 ⟨.putOk "/f" 5 ["x"], 110⟩,
    .propose 1, .propose 0, .apply]

/-- In some run a refresh undoes a `put_ok`: the blocks and the size of the file
are lost. -/
theorem updateLock_undoes_putOk :
    ¬ ∀ s, Runs.Reachable Sys.step (.init KeyedMap.empty) s → ∀ t rest, s.log = t :: rest →
      t.request.op.isUpdateLock = true → ∀ s', s.step .apply = some s' →
        content (recordAt s'.db t.entry.path) = content (recordAt s.db t.entry.path) := by
  intro h
  have hrun : ∃ s, Runs.Reachable Sys.step (.init KeyedMap.empty) s ∧
      (s.log.head?.any fun t => t.request.op.isUpdateLock &&
        (s.step .apply).any fun s' =>
          decide (content (recordAt s'.db t.entry.path) ≠ content (recordAt s.db t.entry.path))) =
        true :=
    Runs.exists_reachable_of_any lostPutOkEvents (by decide +kernel)
  obtain ⟨s, hreach, htest⟩ := hrun
  obtain ⟨t, rest, hlog, hrest⟩ := Sys.exists_head_of_any htest
  obtain ⟨hop, hany⟩ := Bool.and_eq_true_iff.mp hrest
  obtain ⟨s', hstep, hne⟩ := (Option.any_eq_true _ _).mp hany
  exact of_decide_eq_true hne (h s hreach t rest hlog hop s' hstep)

end Spkdfs
