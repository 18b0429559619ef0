import Spkdfs.Metadata.Tree
import Spkdfs.Metadata.LockRefresh

/-!
# Serializability

The handlers check the store when a request arrives, and `on_apply` checks almost
nothing again.  So the checks of a request can be spoiled by an entry that is
applied between them and the request's own entry.

`Spoils` is the table of the pairs for which this happens.  It reads the two
requests and the record of the second one's path before the first is applied.
`admissible_applyEntry` says that the table is exact: a request that its handler
would still admit stays so, with the same effect, if and only if the applied one
does not spoil it.  Outside the table the order in which the entries are applied
is a serial order of the requests.
-/

namespace Spkdfs

open RocksDB Hierarchy

/-- The handler would still admit the request, and its entry would have the
effect of the entry that was proposed. -/
def Task.Admissible (db : Store) (u : Task) : Prop :=
  ∃ e, prepare db u.request.now u.request.op = .ok e ∧ ∀ d, applyEntry d e = applyEntry d u.entry

/-- The applied request changes the list or the size of the file `k`, makes it a
directory, or locks it beyond `now`. -/
def Task.SpoilsPut (db : Store) (t : Task) (k : FullPath) (now : UInt64) : Prop :=
  if t.entry.path = k then
    match t.request.op with
    | .mkdir _ => True
    | .rm _ => (recordAt db k).sub ≠ [] ∨ (recordAt db k).filesize ≠ 0
    | .put _ _ | .updateLock _ => ¬ t.request.now + lockRefreshInterval < now
    | .putOk _ filesize sub => (recordAt db k).sub ≠ sub ∨ (recordAt db k).filesize ≠ filesize
  else t.entry.path.parentPath = k ∧ t.entry.editSub (recordAt db k).sub ≠ (recordAt db k).sub

/-- The applied request `t` spoils the checks of `u`. -/
def Task.Spoils (db : Store) (t u : Task) : Prop :=
  match u.request.op with
  | .mkdir _ =>
    t.entry.path = u.entry.path ∨
      (t.request.op.isRm = true ∧ t.entry.path = u.entry.path.parentPath ∧ t.entry.path ≠ .root)
  | .rm _ => t.request.op.isRm = true ∧ t.entry.path = u.entry.path ∧ t.entry.path ≠ .root
  | .put _ _ => t.SpoilsPut db u.entry.path u.request.now
  | .putOk _ _ _ => t.request.op.isRm = true ∧ t.entry.path = u.entry.path
  | .updateLock _ => ¬ t.entry.KeepsContent db u.entry.path

/-- An applied request spoils no request in flight. -/
def NoneSpoiled (db : Store) (t : Task) (others : List Task) : Prop :=
  ∀ u ∈ others, ¬ t.Spoils db u

/-! ## What a request still needs to be admitted -/

/-- Two records that an `OP_PUT` writes to the same effect are equal. -/
theorem eq_of_applyEntry_put {i j : Inode}
    (h : ∀ d, applyEntry d ⟨.opPut, i⟩ = applyEntry d ⟨.opPut, j⟩) : i = j := by
  have hput : (KeyedMap.empty : Store).put i = (KeyedMap.empty : Store).put j :=
    Option.some.inj (h KeyedMap.empty)
  have hget := congrArg (fun d => d.get i.fullpath) hput
  simp only [KeyedMap.get_put, if_true] at hget
  split at hget
  · exact Option.some.inj hget
  · cases hget

/-- Of the inode of an `OP_PUTOK` only four fields are read. -/
theorem applyEntry_putOk_congr {i j : Inode} (hpath : i.fullpath = j.fullpath)
    (hdir : i.isDirectory = j.isDirectory) (hsub : i.sub = j.sub)
    (hsize : i.filesize = j.filesize) (d : Store) :
    applyEntry d ⟨.opPutok, i⟩ = applyEntry d ⟨.opPutok, j⟩ := by
  have hname : i.filename = j.filename := by rw [Inode.filename, Inode.filename, hpath, hdir]
  have hparent : getParentInode d i = getParentInode d j := by
    rw [getParentInode, getParentInode, Inode.parentPath, Inode.parentPath, hpath]
  show internalPutOk d i = internalPutOk d j
  rw [internalPutOk, internalPutOk, hparent, hname, hpath, hsub, hsize]

namespace Task

variable {u : Task} {db : Store}

theorem admissible_mkdir {path : String} (hop : u.request.op = .mkdir path) :
    u.Admissible db ↔
      pathExists db u.entry.path.parentPath = true ∧ pathExists db u.entry.path = false := by
  obtain ⟨db₀, hp₀⟩ := u.checked
  rw [u.entry_path, Admissible, hop]
  rw [hop] at hp₀
  obtain ⟨hpath, _, _, hentry⟩ := prepare_mkdir_eq_ok.mp hp₀
  constructor
  · rintro ⟨e, hp, _⟩
    obtain ⟨_, hparent, hself, _⟩ := prepare_mkdir_eq_ok.mp hp
    exact ⟨hparent, hself⟩
  · rintro ⟨hparent, hself⟩
    exact ⟨u.entry, prepare_mkdir_eq_ok.mpr ⟨hpath, hparent, hself, hentry⟩, fun _ => rfl⟩

theorem admissible_rm {path : String} (hop : u.request.op = .rm path) :
    u.Admissible db ↔ pathExists db u.entry.path = true := by
  obtain ⟨db₀, hp₀⟩ := u.checked
  rw [u.entry_path, Admissible, hop]
  rw [hop] at hp₀
  obtain ⟨hpath, _, hentry⟩ := prepare_rm_eq_ok.mp hp₀
  constructor
  · rintro ⟨e, hp, _⟩
    exact (prepare_rm_eq_ok.mp hp).2.1
  · intro hself
    exact ⟨u.entry, prepare_rm_eq_ok.mpr ⟨hpath, hself, hentry⟩, fun _ => rfl⟩

/-- The entry of a `put` carries the list and the size that its handler has
read. -/
theorem admissible_put {path storageType : String} (hop : u.request.op = .put path storageType) :
    u.Admissible db ↔
      ((recordAt db u.entry.path).valid && (recordAt db u.entry.path).isDirectory) = false ∧
        (recordAt db u.entry.path).ddlLock < u.request.now ∧
        (recordAt db u.entry.path).sub = u.entry.inode.sub ∧
        (recordAt db u.entry.path).filesize = u.entry.inode.filesize := by
  obtain ⟨db₀, hp₀⟩ := u.checked
  rw [u.entry_path, Admissible, hop]
  rw [hop] at hp₀
  obtain ⟨hpath, _, _, ty, hty, hentry⟩ := prepare_put_eq_ok.mp hp₀
  constructor
  · rintro ⟨e, hp, hsame⟩
    obtain ⟨_, hdir, hlock, ty', _, rfl⟩ := prepare_put_eq_ok.mp hp
    rw [hentry] at hsame ⊢
    have hinode := eq_of_applyEntry_put hsame
    have hsub := congrArg Inode.sub hinode
    have hsize := congrArg Inode.filesize hinode
    exact ⟨hdir, hlock, hsub, hsize⟩
  · rintro ⟨hdir, hlock, hsub, hsize⟩
    refine ⟨u.entry, prepare_put_eq_ok.mpr ⟨hpath, hdir, hlock, ty, hty, ?_⟩, fun _ => rfl⟩
    rw [hentry] at hsub hsize ⊢
    simp [hsub, hsize]

theorem admissible_putOk {path : String} {filesize : UInt64} {sub : List String}
    (hop : u.request.op = .putOk path filesize sub) :
    u.Admissible db ↔ kindAt db u.entry.path = .file := by
  obtain ⟨db₀, hp₀⟩ := u.checked
  rw [u.entry_path, Admissible, hop, kindAt_eq_file]
  rw [hop] at hp₀
  obtain ⟨hpath, _, hfile₀, hentry⟩ := prepare_putOk_eq_ok.mp hp₀
  constructor
  · rintro ⟨e, hp, _⟩
    obtain ⟨_, hvalid, hfile, _⟩ := prepare_putOk_eq_ok.mp hp
    exact ⟨hvalid, hfile⟩
  · rintro ⟨hvalid, hfile⟩
    refine ⟨_, prepare_putOk_eq_ok.mpr ⟨hpath, hvalid, hfile, rfl⟩, fun d => ?_⟩
    rw [hentry]
    refine applyEntry_putOk_congr ?_ ?_ ?_ ?_ d
    · simp
    · simp [hfile, hfile₀]
    · rfl
    · rfl

/-- The entry of an `update_lock` carries the content that its handler has
read. -/
theorem admissible_updateLock {path : String} (hop : u.request.op = .updateLock path) :
    u.Admissible db ↔ content (recordAt db u.entry.path) = content u.entry.inode := by
  obtain ⟨db₀, hp₀⟩ := u.checked
  rw [u.entry_path, Admissible, hop]
  rw [hop] at hp₀
  obtain ⟨hvalid₀, hentry⟩ := prepare_updateLock_eq_ok.mp hp₀
  rw [hentry]
  constructor
  · rintro ⟨e, hp, hsame⟩
    obtain ⟨_, rfl⟩ := prepare_updateLock_eq_ok.mp hp
    have hinode := congrArg content (eq_of_applyEntry_put hsame)
    rwa [content_updateDdlLock] at hinode
  · intro hcontent
    have hrec := eq_of_content_eq (hcontent.trans (content_updateDdlLock _ _))
    refine ⟨_, prepare_updateLock_eq_ok.mpr ⟨?_, rfl⟩, fun d => ?_⟩
    · rw [hrec]
      exact hvalid₀
    · rw [hrec]
      rfl

end Task

/-! ## The table is exact -/

theorem pathExists_iff_kindAt {db : Store} {k : FullPath} :
    pathExists db k = true ↔ k = .root ∨ kindAt db k ≠ .absent := by
  rw [pathExists_iff, kindAt_ne_absent]

section Apply

variable {db db' : Store} {r : Request} {e : Entry}
  (hp : prepare db r.now r.op = .ok e) (h : applyEntry db e = some db')
include hp h

/-- After a request its path exists, unless the request was an `rm`. -/
theorem pathExists_target_applyEntry :
    pathExists db' r.op.target = true ↔ r.op.target = .root ∨ r.op.isRm = false := by
  rw [pathExists_iff_kindAt, kindAt_applyEntry hp h, Function.update_self]
  refine or_congr_right ?_
  cases hop : r.op with
  | mkdir path => simp [Op.kindAfter, Op.isRm]
  | rm path => simp [Op.kindAfter, Op.isRm]
  | put path storageType => simp [Op.kindAfter, Op.isRm]
  | putOk path filesize sub =>
    rw [hop] at hp
    exact iff_of_true (kindAt_ne_absent.mpr (prepare_putOk_eq_ok.mp hp).2.1) rfl
  | updateLock path =>
    rw [hop] at hp
    exact iff_of_true (kindAt_ne_absent.mpr (prepare_updateLock_eq_ok.mp hp).1) rfl

theorem pathExists_applyEntry_ne {k : FullPath} (hk : k ≠ r.op.target) :
    pathExists db' k = pathExists db k := by
  rw [Bool.eq_iff_iff, pathExists_iff_kindAt, pathExists_iff_kindAt, kindAt_applyEntry hp h,
    Function.update_of_ne hk]

/-- Only an `rm` of the path itself makes a path disappear. -/
theorem pathExists_applyEntry {k : FullPath} (hk : pathExists db k = true) :
    pathExists db' k = true ↔ ¬ (r.op.isRm = true ∧ r.op.target = k ∧ k ≠ .root) := by
  by_cases hkt : k = r.op.target
  · subst hkt
    rw [pathExists_target_applyEntry hp h]
    cases r.op.isRm <;> simp
  · rw [pathExists_applyEntry_ne hp h hkt]
    exact iff_of_true hk fun hc => hkt hc.2.1.symm

/-- Every request about a path that does not exist creates it. -/
theorem not_pathExists_applyEntry {k : FullPath} (hk : pathExists db k = false) :
    pathExists db' k = false ↔ r.op.target ≠ k := by
  by_cases hkt : k = r.op.target
  · subst hkt
    have hrm : r.op.isRm = false := by
      cases hop : r.op with
      | rm path =>
        rw [hop] at hp hk
        rw [(prepare_rm_eq_ok.mp hp).2.1] at hk
        cases hk
      | mkdir path => rfl
      | put path storageType => rfl
      | putOk path filesize sub => rfl
      | updateLock path => rfl
    rw [(pathExists_target_applyEntry hp h).mpr (Or.inr hrm)]
    simp
  · rw [pathExists_applyEntry_ne hp h hkt]
    exact iff_of_true hk (Ne.symm hkt)

/-- Only an `rm` of the path itself makes a file something else. -/
theorem kindAt_file_applyEntry {k : FullPath} (hk : kindAt db k = .file) :
    kindAt db' k = .file ↔ ¬ (r.op.isRm = true ∧ r.op.target = k) := by
  rw [kindAt_applyEntry hp h]
  by_cases hkt : k = r.op.target
  · subst hkt
    rw [Function.update_self]
    cases hop : r.op with
    | rm path => simp [Op.kindAfter, Op.isRm]
    | mkdir path =>
      -- A `mkdir` of a file is not admitted.
      rw [hop] at hp hk
      have hself := (prepare_mkdir_eq_ok.mp hp).2.2.1
      rw [pathExists_iff_kindAt.mpr (Or.inr (by rw [hk]; simp))] at hself
      cases hself
    | put path storageType => simp [Op.kindAfter, Op.isRm]
    | putOk path filesize sub =>
      rw [hop] at hk
      exact iff_of_true hk (by simp [Op.isRm])
    | updateLock path =>
      rw [hop] at hk
      exact iff_of_true hk (by simp [Op.isRm])
  · rw [Function.update_of_ne hkt]
    exact iff_of_true hk fun hc => hkt hc.2.symm

end Apply

/-- What the handler of `put` reads stays as it is exactly outside the table. -/
theorem recordAt_put_applyEntry {db db' : Store} {t : Task} {e : Entry}
    (hp : prepare db t.request.now t.request.op = .ok e) (h : applyEntry db e = some db')
    (h' : applyEntry db t.entry = some db') {k : FullPath} {now : UInt64}
    (hdir : ((recordAt db k).valid && (recordAt db k).isDirectory) = false)
    (hlock : (recordAt db k).ddlLock < now) :
    (((recordAt db' k).valid && (recordAt db' k).isDirectory) = false ∧
      (recordAt db' k).ddlLock < now ∧ (recordAt db' k).sub = (recordAt db k).sub ∧
      (recordAt db' k).filesize = (recordAt db k).filesize) ↔ ¬ t.SpoilsPut db k now := by
  have hpos : (0 : UInt64) < now := UInt64.lt_of_le_of_lt UInt64.zero_le hlock
  unfold Task.SpoilsPut
  by_cases hk : t.entry.path = k
  · rw [if_pos hk]
    have htarget : t.request.op.target = k := by rw [← t.entry_path, hk]
    have hwritten : recordAt db' k = e.written db := by
      rw [← htarget, ← (prepare_spec hp).2]
      exact recordAt_applyEntry_self h
    rw [hwritten]
    cases hop : t.request.op with
    | mkdir path =>
      rw [hop] at hp
      obtain ⟨_, _, _, rfl⟩ := prepare_mkdir_eq_ok.mp hp
      simp [Entry.written, Inode.getDefaultDir]
    | rm path =>
      rw [hop] at hp
      obtain ⟨_, _, rfl⟩ := prepare_rm_eq_ok.mp hp
      have hnew : (Entry.mk .opRm (.new (Op.rm path).target)).written db =
          .new (Op.rm path).target := rfl
      rw [hnew, not_or, not_not, not_not]
      constructor
      · rintro ⟨_, _, hsub, hsize⟩
        exact ⟨hsub.symm, hsize.symm⟩
      · rintro ⟨hsub, hsize⟩
        exact ⟨rfl, hpos, hsub.symm, hsize.symm⟩
    | put path storageType =>
      rw [hop] at hp htarget
      obtain ⟨_, _, _, ty, _, rfl⟩ := prepare_put_eq_ok.mp hp
      subst htarget
      simp [Entry.written]
    | putOk path filesize sub =>
      rw [hop] at hp htarget
      obtain ⟨_, _, hfile, rfl⟩ := prepare_putOk_eq_ok.mp hp
      subst htarget
      simp [Entry.written, Entry.path, Inode.unlock, hfile, hpos, eq_comm]
    | updateLock path =>
      rw [hop] at hp htarget
      obtain ⟨_, rfl⟩ := prepare_updateLock_eq_ok.mp hp
      subst htarget
      simp [Entry.written, Inode.updateDdlLock, hdir]
  · rw [if_neg hk]
    have hrec := recordAt_applyEntry h' k
    rw [if_neg (Ne.symm hk)] at hrec
    by_cases hparent : k = t.entry.path.parentPath
    · rw [if_pos hparent] at hrec
      rw [hrec]
      simp [hdir, hlock, hparent.symm]
    · rw [if_neg hparent] at hrec
      rw [hrec]
      exact iff_of_true ⟨hdir, hlock, rfl, rfl⟩ fun hc => hparent hc.1.symm

/-- An applied request leaves the other one admissible exactly when it does not
spoil it. -/
theorem admissible_applyEntry {db db' : Store} {t u : Task} (ht : t.Admissible db)
    (hu : u.Admissible db) (h : applyEntry db t.entry = some db') :
    u.Admissible db' ↔ ¬ t.Spoils db u := by
  obtain ⟨et, hpt, heff⟩ := ht
  have het : applyEntry db et = some db' := by rw [heff, h]
  unfold Task.Spoils
  rw [t.entry_path]
  cases hop : u.request.op with
  | mkdir path =>
    obtain ⟨hparent, hself⟩ := (Task.admissible_mkdir hop).mp hu
    rw [Task.admissible_mkdir hop, pathExists_applyEntry hpt het hparent,
      not_pathExists_applyEntry hpt het hself, not_or, and_comm]
    refine and_congr_right fun _ => not_congr (and_congr_right fun _ => ?_)
    exact and_congr_right fun heq => by rw [heq]
  | rm path =>
    rw [Task.admissible_rm hop, pathExists_applyEntry hpt het ((Task.admissible_rm hop).mp hu)]
    refine not_congr (and_congr_right fun _ => and_congr_right fun heq => by rw [heq])
  | put path storageType =>
    obtain ⟨hdir, hlock, hsub, hsize⟩ := (Task.admissible_put hop).mp hu
    rw [Task.admissible_put hop, ← hsub, ← hsize]
    exact recordAt_put_applyEntry hpt het h hdir hlock
  | putOk path filesize sub =>
    rw [Task.admissible_putOk hop,
      kindAt_file_applyEntry hpt het ((Task.admissible_putOk hop).mp hu)]
  | updateLock path =>
    rw [Task.admissible_updateLock hop, ← (Task.admissible_updateLock hop).mp hu,
      content_recordAt_applyEntry h, not_not]

/-! ## Whole runs -/

theorem admissible_of_reach {db0 : Store} {s : Sys}
    (h : Runs.Reach Sys.step (Sys.OnApply NoneSpoiled) (.init db0) s) :
    ∀ t ∈ s.inFlight, t.Admissible s.db := by
  refine (Sys.inFlight_invariant (I := fun _ => True) trivial ?_ ?_ h).2
  · intro db t _ ht
    exact ⟨t.entry, ht, fun _ => rfl⟩
  · intro db t others db' hok h _ ht
    exact ⟨trivial, fun u hu hadm => (admissible_applyEntry ht hadm h).mpr (hok u hu)⟩

/-- The applied requests are admitted one at a time, in the order in which they
were applied. -/
theorem run_acceptOne_applied {db0 : Store} {s : Sys}
    (h : Runs.Reach Sys.step (Sys.OnApply NoneSpoiled) (.init db0) s) :
    Runs.run acceptOne db0 (s.applied.map Task.request) = some s.db := by
  refine h.invariant (I := fun s => Runs.run acceptOne db0 (s.applied.map Task.request) = some s.db)
    rfl fun s ev s' hs hrun _ hstep => ?_
  rcases Sys.step_cases hstep with rfl | ⟨t, _, _, rfl⟩ | ⟨i, _, hdb, happlied, _⟩ |
    ⟨t, rest, db, _, hlog, hdb, rfl⟩
  · exact hrun
  · exact hrun
  · rw [hdb, happlied]
    exact hrun
  · obtain ⟨e, hp, hsame⟩ := admissible_of_reach hs t (Sys.head_mem_inFlight hlog)
    have haccept : acceptOne s.db t.request = some db :=
      acceptOne_eq_some.mpr ⟨e, hp, by rw [hsame, hdb]⟩
    rw [List.map_append, Runs.run_append, hrun]
    simpa using haccept

/-- Between two `mkdir` requests of one path that are admitted one at a time there
is an `rm` of the path. -/
theorem exists_rm_between_mkdirs {db0 db : Store} {a mid b : List Request} {r r' : Request}
    (h : Runs.run acceptOne db0 (a ++ r :: (mid ++ r' :: b)) = some db) {path path' : String}
    (hr : r.op = .mkdir path) (hr' : r'.op = .mkdir path') (hsame : r'.op.target = r.op.target) :
    ∃ q ∈ mid, q.op.isRm = true ∧ q.op.target = r.op.target := by
  by_contra hno
  obtain ⟨d₁, _, h₁⟩ := Runs.run_append_eq_some h
  obtain ⟨d₂, h₂, hrest⟩ := Runs.run_cons_eq_some h₁
  obtain ⟨d₃, h₃, hlast⟩ := Runs.run_append_eq_some hrest
  obtain ⟨d₄, h₄, _⟩ := Runs.run_cons_eq_some hlast
  have hthere : pathExists d₂ r.op.target = true := by
    obtain ⟨e, hp, he⟩ := acceptOne_eq_some.mp h₂
    rw [pathExists_iff_kindAt, kindAt_applyEntry hp he, Function.update_self, hr]
    exact Or.inr (by simp [Op.kindAfter])
  have hstays : pathExists d₃ r.op.target = true := by
    refine Runs.run_preserves (P := fun d => pathExists d r.op.target = true)
      (fun d d' q hq hd haccept => ?_) hthere h₃
    obtain ⟨e, hp, he⟩ := acceptOne_eq_some.mp haccept
    exact (pathExists_applyEntry hp he hd).mpr fun hc => hno ⟨q, hq, hc.1, hc.2.1⟩
  obtain ⟨e, hp, _⟩ := acceptOne_eq_some.mp h₄
  rw [hr'] at hp hsame
  rw [← hsame, (prepare_mkdir_eq_ok.mp hp).2.2.1] at hstays
  cases hstays

/-- In every run in which no applied request spoils a request in flight, the
requests that replied success can be served one at a time: some order of exactly
these requests admits every one of them and ends in the same store.  In this
order, two `mkdir` requests of one path have an `rm` of it between them.

A further apply spoils a request in flight exactly when the handler of that
request would now refuse it, or propose an entry with another effect. -/
theorem serializable_of_noneSpoiled {db0 : Store} {s : Sys}
    (h : Runs.Reach Sys.step (Sys.OnApply NoneSpoiled) (.init db0) s) :
    (∃ order : List Request, order.Perm (s.applied.map Task.request) ∧
      Runs.run acceptOne db0 order = some s.db ∧
      ∀ a r mid r' b path path', order = a ++ r :: (mid ++ r' :: b) →
        r.op = .mkdir path → r'.op = .mkdir path' → r'.op.target = r.op.target →
        ∃ q ∈ mid, q.op.isRm = true ∧ q.op.target = r.op.target) ∧
    ∀ t rest s', s.log = t :: rest → s.step .apply = some s' →
      ∀ u ∈ s.prepared ++ rest, (u.Admissible s'.db ↔ ¬ t.Spoils s.db u) := by
  constructor
  · have hrun := run_acceptOne_applied h
    refine ⟨s.applied.map Task.request, .refl _, hrun, ?_⟩
    intro a r mid r' b path path' horder hr hr' hsame
    rw [horder] at hrun
    exact exists_rm_between_mkdirs hrun hr hr' hsame
  · intro t rest s' hlog hstep u hu
    have hadm := admissible_of_reach h
    obtain ⟨db, hdb, rfl⟩ := Sys.step_apply_cons hlog hstep
    exact admissible_applyEntry (hadm t (Sys.head_mem_inFlight hlog))
      (hadm u (Sys.mem_inFlight_of_mem_rest hlog hu)) hdb

/-- The two requests have no path in common, counting the parent of the one
against the path of the other. -/
def Task.Apart (t u : Task) : Prop :=
  t.entry.path ≠ u.entry.path ∧ t.entry.path ≠ u.entry.path.parentPath ∧
    t.entry.path.parentPath ≠ u.entry.path

instance (t u : Task) : Decidable (t.Apart u) := inferInstanceAs (Decidable (_ ∧ _))

/-- Requests that lie apart never spoil each other. -/
theorem not_spoils_of_apart {db : Store} {t u : Task} (h : t.Apart u) : ¬ t.Spoils db u := by
  obtain ⟨hself, hparent, hchild⟩ := h
  unfold Task.Spoils
  split
  · exact not_or.mpr ⟨hself, fun hc => hparent hc.2.1⟩
  · exact fun hc => hself hc.2.1
  · rw [Task.SpoilsPut, if_neg hself]
    exact fun hc => hchild hc.1
  · exact fun hc => hself hc.2
  · exact not_not.mpr ⟨fun hc => absurd hc.symm hself, fun _ hc => absurd hc.symm hchild⟩

/-- Requests of two clients in two directories, with their steps mixed. -/
def mixedEvents : List Event :=
  [.prepare 0 ⟨.mkdir "/a", 100⟩, .prepare 1 ⟨.mkdir "/b", 100⟩, .propose 1, .propose 0, .apply,
    .apply, .prepare 0 ⟨.put "/a/x" "RE<3,16>", 101⟩, .prepare 1 ⟨.mkdir "/b/y", 101⟩, .propose 0,
    .propose 0, .apply, .prepare 0 ⟨.putOk "/a/x" 5 ["z"], 102⟩, .propose 0, .apply, .apply]

/-- Five requests of `mixedEvents` reply success, in a serial order. -/
theorem serializable_mixedEvents :
    ∃ s order, Runs.Reach Sys.step (Sys.OnApply NoneSpoiled) (.init KeyedMap.empty) s ∧
      s.applied.length = 5 ∧ order.Perm (s.applied.map Task.request) ∧
      Runs.run acceptOne KeyedMap.empty order = some s.db := by
  have hrun : ∃ s, Runs.Reach Sys.step (Sys.OnApply fun _ t others => ∀ u ∈ others, t.Apart u)
      (.init KeyedMap.empty) s ∧ decide (s.applied.length = 5) = true :=
    Runs.exists_reach_of_any_guarded mixedEvents (by decide +kernel)
  obtain ⟨s, hapart, hlen⟩ := hrun
  have hreach : Runs.Reach Sys.step (Sys.OnApply NoneSpoiled) (.init KeyedMap.empty) s :=
    hapart.mono fun _ _ hok => hok.mono fun _ _ _ h u hu => not_spoils_of_apart (h u hu)
  obtain ⟨⟨order, hperm, horder, _⟩, _⟩ := serializable_of_noneSpoiled hreach
  exact ⟨s, order, hreach, of_decide_eq_true hlen, hperm, horder⟩

/-- Two clients make the same directory at the same time. -/
def twoMkdirEvents : List Event :=
  [.prepare 0 ⟨.mkdir "/tests", 100⟩, .prepare 1 ⟨.mkdir "/tests", 100⟩, .propose 0, .propose 0,
    .apply, .apply]

/-- In some run two requests reply success that no order admits. -/
theorem not_serializable_twoMkdirEvents :
    ¬ ∀ s, Runs.Reachable Sys.step (.init KeyedMap.empty) s →
      ∃ order : List Request, order.Perm (s.applied.map Task.request) ∧
        Runs.run acceptOne KeyedMap.empty order = some s.db := by
  intro h
  have hrun : ∃ s, Runs.Reachable Sys.step (.init KeyedMap.empty) s ∧
      decide (s.applied.map Task.request = List.replicate 2 ⟨.mkdir "/tests", 100⟩) = true :=
    Runs.exists_reachable_of_any twoMkdirEvents (by decide +kernel)
  obtain ⟨s, hreach, happlied⟩ := hrun
  obtain ⟨order, hperm, horder⟩ := h s hreach
  rw [of_decide_eq_true happlied] at hperm
  rw [List.perm_replicate.mp hperm] at horder
  have hnone : (Runs.run acceptOne KeyedMap.empty
      (List.replicate 2 ⟨.mkdir "/tests", 100⟩)).isNone = true := by
    decide +kernel
  rw [horder] at hnone
  cases hnone

end Spkdfs
