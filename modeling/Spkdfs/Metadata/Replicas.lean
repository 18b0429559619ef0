import Spkdfs.Node.RaftNN

/-!
# Replicas and snapshots

Every namenode applies the one committed log to its own store.  A snapshot is
meant to spare a lagging replica a part of that log: `on_snapshot_save` makes
one, braft copies it to the other replica, and `on_snapshot_load` installs it
there.

`RaftNN::on_snapshot_save` calls `RocksDB::snapshot`, which makes a backup in the
replica's own backup directory, and it gives no file to the snapshot writer.
`RaftNN::on_snapshot_load` does not look at the snapshot reader; it restores the
last backup of the replica's own directory.  So what braft copies is an index
and nothing else, and the replica that installs it goes back to a store of its
own.  `RaftDN` does it otherwise: it writes its file into the directory of the
writer, and reads it from the directory of the reader.

A run keeps every replica at the store of its log prefix as long as the backup
that it restores is the store of the prefix that it skips to.
-/

namespace Spkdfs

/-- A namenode: its store, how much of the log it has applied, and the last
backup of its own backup directory. -/
structure Replica where
  db : Store
  applied : ℕ
  backup : Option Store

namespace Replica

def init : Replica := ⟨KeyedMap.empty, 0, none⟩

/-- `RaftNN::on_snapshot_save`, that is `RocksDB::snapshot`. -/
def onSnapshotSave (r : Replica) : Replica := { r with backup := some r.db }

/-- `RaftNN::on_snapshot_load`, that is `RocksDB::load_snapshot`, for a snapshot
of the given index.  Without a backup the restore fails, and the assertion after
it stops the process. -/
def onSnapshotLoad (r : Replica) (index : ℕ) : Option Replica :=
  match r.backup with
  | none => none
  | some db => some { r with db := db, applied := index }

/-- One round of `RaftNN::on_apply`, for the next entry of the log. -/
def applyNext (r : Replica) (log : List Entry) : Option Replica :=
  match log[r.applied]? with
  | none => none
  | some e =>
    match applyEntry r.db e with
    | none => none
    | some db => some { r with db := db, applied := r.applied + 1 }

end Replica

/-- The replicas `ι`, the committed log, and the snapshots that were taken: by
which replica, and at which index. -/
structure Cluster (ι : Type) where
  replica : ι → Replica
  log : List Entry
  snapshots : List (ι × ℕ)

/-- What can happen next. -/
inductive ClusterEvent (ι : Type)
  | commit (entry : Entry)
  | apply (i : ι)
  | save (i : ι)
  | install (i owner : ι) (index : ℕ)

namespace Cluster

variable {ι : Type} [DecidableEq ι]

def init : Cluster ι := ⟨fun _ => .init, [], []⟩

/-- Replace the state of one replica. -/
def setReplica (s : Cluster ι) (i : ι) (r : Replica) : Cluster ι :=
  { s with replica := Function.update s.replica i r }

@[simp] theorem setReplica_self (s : Cluster ι) (i : ι) (r : Replica) :
    (s.setReplica i r).replica i = r :=
  Function.update_self ..

@[simp] theorem setReplica_log (s : Cluster ι) (i : ι) (r : Replica) :
    (s.setReplica i r).log = s.log := rfl

theorem setReplica_of_ne {s : Cluster ι} {i j : ι} {r : Replica} (hj : j ≠ i) :
    (s.setReplica i r).replica j = s.replica j :=
  Function.update_of_ne hj ..

/-- One step.  A replica installs only snapshots that another replica has
taken. -/
def step (s : Cluster ι) : ClusterEvent ι → Option (Cluster ι)
  | .commit entry => some { s with log := s.log ++ [entry] }
  | .apply i => ((s.replica i).applyNext s.log).map (s.setReplica i)
  | .save i =>
    some { s.setReplica i (s.replica i).onSnapshotSave with
      snapshots := (i, (s.replica i).applied) :: s.snapshots }
  | .install i owner index =>
    if i ≠ owner ∧ (owner, index) ∈ s.snapshots then
      ((s.replica i).onSnapshotLoad index).map (s.setReplica i)
    else none

/-- The index at which the replica has last taken a snapshot. -/
def lastSaved (s : Cluster ι) (i : ι) : Option ℕ :=
  (s.snapshots.find? fun p => p.1 = i).map Prod.snd

/-- The replica's own last backup is the store of the log up to the index of the
snapshot. -/
def BackupMatches (s : Cluster ι) : ClusterEvent ι → Prop
  | .install i _ index => (s.replica i).backup = onApply KeyedMap.empty (s.log.take index)
  | .commit _ | .apply _ | .save _ => True

/-- The replica has the store of the part of the log that it has applied. -/
def InStep (s : Cluster ι) (i : ι) : Prop :=
  (s.replica i).applied ≤ s.log.length ∧
    onApply KeyedMap.empty (s.log.take (s.replica i).applied) = some (s.replica i).db

end Cluster

theorem Replica.applyNext_eq_some {r r' : Replica} {log : List Entry}
    (h : r.applyNext log = some r') :
    ∃ e db, log[r.applied]? = some e ∧ applyEntry r.db e = some db ∧
      r' = { r with db := db, applied := r.applied + 1 } := by
  unfold applyNext at h
  split at h
  · cases h
  · rename_i e he
    split at h
    · cases h
    · rename_i db hdb
      exact ⟨e, db, he, hdb, (Option.some.inj h).symm⟩

/-- Applying the next entry of the log extends the applied prefix by it. -/
theorem onApply_take_succ {log : List Entry} {n : ℕ} {e : Entry} {db db' : Store}
    (hdb : onApply KeyedMap.empty (log.take n) = some db) (he : log[n]? = some e)
    (h : applyEntry db e = some db') : onApply KeyedMap.empty (log.take (n + 1)) = some db' := by
  rw [List.take_add_one, he, onApply, Runs.run_append]
  rw [onApply] at hdb
  simpa [hdb] using h

namespace Cluster

variable {ι : Type}

variable [DecidableEq ι]

/-- Every replica is in step with the log, the log is as long as every snapshot
says, and a backup is the store of the log up to the index at which it was
made. -/
structure Invariant (s : Cluster ι) : Prop where
  inStep : ∀ i, s.InStep i
  index_le : ∀ p ∈ s.snapshots, p.2 ≤ s.log.length
  backup_eq : ∀ i, (s.replica i).backup =
    (s.lastSaved i).bind fun n => onApply KeyedMap.empty (s.log.take n)

theorem invariant_init : (init : Cluster ι).Invariant where
  inStep _ := ⟨le_refl 0, rfl⟩
  index_le := by simp [init]
  backup_eq _ := rfl

theorem Invariant.lastSaved_le {s : Cluster ι} (hs : s.Invariant) {i : ι} {n : ℕ}
    (h : s.lastSaved i = some n) : n ≤ s.log.length := by
  obtain ⟨p, hp, rfl⟩ := Option.map_eq_some_iff.mp h
  exact hs.index_le p (List.mem_of_find?_eq_some hp)

theorem inStep_setReplica {s : Cluster ι} (hs : ∀ j, s.InStep j) {i : ι} {r : Replica}
    (hle : r.applied ≤ s.log.length)
    (hdb : onApply KeyedMap.empty (s.log.take r.applied) = some r.db) (j : ι) :
    (s.setReplica i r).InStep j := by
  by_cases hj : j = i
  · subst hj
    rw [InStep, setReplica_self]
    exact ⟨hle, hdb⟩
  · rw [InStep, setReplica_of_ne hj]
    exact hs j

/-- A replica that keeps its backup. -/
theorem invariant_setReplica {s : Cluster ι} (hs : s.Invariant) {i : ι} {r : Replica}
    (hle : r.applied ≤ s.log.length)
    (hdb : onApply KeyedMap.empty (s.log.take r.applied) = some r.db)
    (hbackup : r.backup = (s.replica i).backup) : (s.setReplica i r).Invariant where
  inStep := inStep_setReplica hs.inStep hle hdb
  index_le := hs.index_le
  backup_eq j := by
    have hsame : ((s.setReplica i r).replica j).backup = (s.replica j).backup := by
      by_cases hj : j = i
      · subst hj
        rw [setReplica_self, hbackup]
      · rw [setReplica_of_ne hj]
    exact hsame.trans (hs.backup_eq j)

theorem invariant_commit {s : Cluster ι} (hs : s.Invariant) (entry : Entry) :
    ({ s with log := s.log ++ [entry] } : Cluster ι).Invariant where
  inStep i := by
    obtain ⟨hle, hdb⟩ := hs.inStep i
    refine ⟨?_, ?_⟩
    · rw [List.length_append]
      exact Nat.le_add_right_of_le hle
    · rwa [List.take_append_of_le_length hle]
  index_le p hp := by
    rw [List.length_append]
    exact Nat.le_add_right_of_le (hs.index_le p hp)
  backup_eq i := by
    refine (hs.backup_eq i).trans ?_
    cases hn : s.lastSaved i with
    | none => simp [lastSaved, Option.map_eq_none_iff.mp hn]
    | some n =>
      show _ = (s.lastSaved i).bind _
      rw [hn, Option.bind_some, Option.bind_some,
        List.take_append_of_le_length (hs.lastSaved_le hn)]

theorem invariant_save {s : Cluster ι} (hs : s.Invariant) (i : ι) :
    ({ s.setReplica i (s.replica i).onSnapshotSave with
      snapshots := (i, (s.replica i).applied) :: s.snapshots } : Cluster ι).Invariant where
  inStep := inStep_setReplica (r := (s.replica i).onSnapshotSave) hs.inStep
    (hs.inStep i).1 (hs.inStep i).2
  index_le p hp := by
    rcases List.mem_cons.mp hp with rfl | hp
    · exact (hs.inStep i).1
    · exact hs.index_le p hp
  backup_eq j := by
    by_cases hj : j = i
    · subst hj
      simpa [lastSaved, Replica.onSnapshotSave] using (hs.inStep j).2.symm
    · have hij : ¬ i = j := fun h => hj h.symm
      simpa [lastSaved, setReplica_of_ne hj, hij] using hs.backup_eq j

theorem step_install {s s' : Cluster ι} {i owner : ι} {index : ℕ}
    (h : s.step (.install i owner index) = some s') :
    (owner, index) ∈ s.snapshots ∧ ∃ db, (s.replica i).backup = some db ∧
      s' = s.setReplica i { s.replica i with db := db, applied := index } := by
  simp only [step] at h
  split at h
  · rename_i hcond
    obtain ⟨r, hr, rfl⟩ := Option.map_eq_some_iff.mp h
    unfold Replica.onSnapshotLoad at hr
    split at hr
    · cases hr
    · rename_i db hdb
      obtain rfl := Option.some.inj hr
      exact ⟨hcond.2, db, hdb, rfl⟩
  · cases h

theorem invariant_step {s s' : Cluster ι} {ev : ClusterEvent ι} (hs : s.Invariant)
    (hok : s.BackupMatches ev) (h : s.step ev = some s') : s'.Invariant := by
  cases ev with
  | commit entry =>
    obtain rfl := Option.some.inj h
    exact invariant_commit hs entry
  | apply i =>
    obtain ⟨r, hr, rfl⟩ := Option.map_eq_some_iff.mp h
    obtain ⟨e, db, he, hdb, rfl⟩ := Replica.applyNext_eq_some hr
    obtain ⟨hlt, _⟩ := List.getElem?_eq_some_iff.mp he
    exact invariant_setReplica hs hlt (onApply_take_succ (hs.inStep i).2 he hdb) rfl
  | save i =>
    obtain rfl := Option.some.inj h
    exact invariant_save hs i
  | install i owner index =>
    obtain ⟨hmem, db, hdb, rfl⟩ := step_install h
    exact invariant_setReplica hs (hs.index_le _ hmem) (hok.symm.trans hdb) rfl

theorem invariant_of_reach {s : Cluster ι} (h : Runs.Reach step BackupMatches init s) :
    s.Invariant :=
  h.invariant invariant_init fun _ _ _ _ hs hok hstep => invariant_step hs hok hstep

/-- The replica has last taken a snapshot of its own at the index of the snapshot
that it installs. -/
def SavedThere (s : Cluster ι) : ClusterEvent ι → Prop
  | .install i _ index => s.lastSaved i = some index
  | .commit _ | .apply _ | .save _ => True

instance (s : Cluster ι) (ev : ClusterEvent ι) : Decidable (s.SavedThere ev) :=
  match ev with
  | .install _ _ _ => inferInstanceAs (Decidable (_ = _))
  | .commit _ | .apply _ | .save _ => inferInstanceAs (Decidable True)

/-- A backup that was made at the same index matches. -/
theorem reach_backupMatches {s : Cluster ι} (h : Runs.Reach step SavedThere init s) :
    Runs.Reach step BackupMatches init s := by
  refine h.invariant .refl fun s ev s' _ hreach hok hstep => hreach.tail ?_ hstep
  cases ev with
  | install i owner index =>
    refine ((invariant_of_reach hreach).backup_eq i).trans ?_
    rw [show s.lastSaved i = some index from hok]
    rfl
  | commit entry => trivial
  | apply i => trivial
  | save i => trivial

end Cluster

/-- In every run in which a replica installs a snapshot only when its own last
backup is the store of the log up to the snapshot's index, two replicas with the
same applied index hold the same store.  An installation that does not meet this
leaves its replica out of step with the log. -/
theorem replicas_agree_of_backupMatches {ι : Type} [DecidableEq ι] {s : Cluster ι}
    (h : Runs.Reach Cluster.step Cluster.BackupMatches .init s) :
    (∀ i j, (s.replica i).applied = (s.replica j).applied →
      (s.replica i).db = (s.replica j).db) ∧
    ∀ i owner index s', s.step (.install i owner index) = some s' →
      ¬ s.BackupMatches (.install i owner index) → ¬ s'.InStep i := by
  constructor
  · intro i j hsame
    have hi := ((Cluster.invariant_of_reach h).inStep i).2
    have hj := ((Cluster.invariant_of_reach h).inStep j).2
    rw [hsame, hj] at hi
    exact (Option.some.inj hi).symm
  · intro i owner index s' hstep hno hin
    obtain ⟨_, db, hdb, rfl⟩ := Cluster.step_install hstep
    refine hno (hdb.trans ?_)
    rw [Cluster.InStep, Cluster.setReplica_self] at hin
    exact hin.2.symm

/-- Two replicas that both take a snapshot behind the first entry. -/
def alignedEvents : List (ClusterEvent (Fin 2)) :=
  [.commit ⟨.opMkdir, .getDefaultDir (.set "/a")⟩, .commit ⟨.opMkdir, .getDefaultDir (.set "/b")⟩,
    .apply 0, .save 0, .apply 1, .save 1, .install 1 0 1, .apply 0, .apply 1]

/-- After `alignedEvents` the two replicas have applied both entries, and agree. -/
theorem replicas_agree_alignedEvents :
    ∃ s : Cluster (Fin 2), Runs.Reach Cluster.step Cluster.BackupMatches .init s ∧
      (s.replica 0).applied = 2 ∧ (s.replica 1).applied = 2 ∧
      (s.replica 0).db = (s.replica 1).db := by
  have hrun : ∃ s : Cluster (Fin 2), Runs.Reach Cluster.step Cluster.SavedThere .init s ∧
      ((s.replica 0).applied = 2 ∧ (s.replica 1).applied = 2 : Bool) = true :=
    Runs.exists_reach_of_any_guarded alignedEvents (by decide +kernel)
  obtain ⟨s, hsaved, htest⟩ := hrun
  obtain ⟨h₀, h₁⟩ := of_decide_eq_true htest
  have hreach := Cluster.reach_backupMatches hsaved
  refine ⟨s, hreach, h₀, h₁, (replicas_agree_of_backupMatches hreach).1 0 1 ?_⟩
  rw [h₀, h₁]

/-- The second replica has taken its snapshot before the entry that it misses. -/
def laggingEvents : List (ClusterEvent (Fin 2)) :=
  [.commit ⟨.opMkdir, .getDefaultDir (.set "/a")⟩, .commit ⟨.opMkdir, .getDefaultDir (.set "/b")⟩,
    .apply 1, .save 1, .apply 0, .apply 0, .save 0, .install 1 0 2]

/-- In some run two replicas have applied the same part of the log and hold
different stores. -/
theorem not_replicas_agree_laggingEvents :
    ¬ ∀ s : Cluster (Fin 2), Runs.Reachable Cluster.step .init s → ∀ i j,
      (s.replica i).applied = (s.replica j).applied → (s.replica i).db = (s.replica j).db := by
  intro h
  have hrun : ∃ s : Cluster (Fin 2), Runs.Reachable Cluster.step .init s ∧
      ((s.replica 0).applied = (s.replica 1).applied ∧
        (s.replica 0).db.get (.set "/b") ≠ (s.replica 1).db.get (.set "/b") : Bool) = true :=
    Runs.exists_reachable_of_any laggingEvents (by decide +kernel)
  obtain ⟨s, hreach, htest⟩ := hrun
  obtain ⟨hsame, hdiff⟩ := of_decide_eq_true htest
  rw [h s hreach 0 1 hsame] at hdiff
  exact hdiff rfl

end Spkdfs
