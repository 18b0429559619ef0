import Spkdfs.Metadata.Tree

/-!
# Directory listings

The list of a directory and the records of its children are two copies of one
fact.  `internal_mkdir` and `internal_put_ok` add a name to the list,
`internal_rm` removes one, and each computes the name from the inode of its own
entry.  The name of a directory ends in a slash; the inode of an `rm` entry is
never a directory, because the handler does not load the record.

Whether a file is listed depends on its history: a `put` makes it valid, and the
`put_ok` that follows lists it.  `Tracked` adds this bit to the store.
`listedName` is the name under which a path has to be listed, and
`listedName_advance` says that a request changes it for its own path only.
The rest is the part on listings of `Spkdfs.Lib.Hierarchy`.
-/

namespace Spkdfs

open RocksDB Hierarchy

/-- A store, and for each path whether a `put_ok` was applied since the path last
became valid. -/
structure Tracked where
  db : Store
  acked : FullPath → Bool

/-- The new bit of the target, from its record and its bit before the request. -/
def Op.ackedAfter (record : Inode) (old : Bool) : Op → Bool
  | .mkdir _ => false
  | .rm _ => false
  | .put _ _ => record.valid && old
  | .putOk _ _ _ => true
  | .updateLock _ => old

namespace Tracked

/-- The empty store. -/
def init : Tracked := ⟨KeyedMap.empty, fun _ => false⟩

/-- The tracked store after an admitted request that leaves `db`. -/
def advance (s : Tracked) (r : Request) (db : Store) : Tracked where
  db := db
  acked := Function.update s.acked r.op.target
    (r.op.ackedAfter (recordAt s.db r.op.target) (s.acked r.op.target))

/-- `serve`, with the bits. -/
def serve (s : Tracked) (r : Request) : Option Tracked :=
  match prepare s.db r.now r.op with
  | .error _ => some s
  | .ok e =>
    match applyEntry s.db e with
    | none => none
    | some db => some (s.advance r db)

@[simp] theorem advance_db (s : Tracked) (r : Request) (db : Store) :
    (s.advance r db).db = db := rfl

theorem advance_acked_target (s : Tracked) (r : Request) (db : Store) :
    (s.advance r db).acked r.op.target =
      r.op.ackedAfter (recordAt s.db r.op.target) (s.acked r.op.target) :=
  Function.update_self ..

theorem advance_acked_of_ne (s : Tracked) {r : Request} (db : Store) {k : FullPath}
    (hk : k ≠ r.op.target) : (s.advance r db).acked k = s.acked k :=
  Function.update_of_ne hk ..

/-- The path has a valid record of a directory, or of a file that was
acknowledged.  The root is nobody's child. -/
def Listed (s : Tracked) (c : FullPath) : Prop :=
  c ≠ .root ∧ (recordAt s.db c).valid = true ∧
    ((recordAt s.db c).isDirectory = true ∨ s.acked c = true)

instance (s : Tracked) (c : FullPath) : Decidable (s.Listed c) :=
  inferInstanceAs (Decidable (_ ∧ _))

/-- The list of every valid directory has no name twice, and holds exactly the
names of its listed children. -/
def ListingsExact (s : Tracked) : Prop :=
  ∀ D, (recordAt s.db D).valid = true → (recordAt s.db D).isDirectory = true →
    (recordAt s.db D).sub.Nodup ∧
      ∀ n, n ∈ (recordAt s.db D).sub ↔
        ∃ c, c.parentPath = D ∧ s.Listed c ∧ n = (recordAt s.db c).filename

/-- The name under which a record has to be listed. -/
def nameOf (record : Inode) (acked : Bool) : Option String :=
  if record.fullpath ≠ .root ∧ record.valid = true ∧ (record.isDirectory = true ∨ acked = true) then
    some record.filename
  else none

/-- The name under which a path has to be listed. -/
def listedName (s : Tracked) (c : FullPath) : Option String := nameOf (recordAt s.db c) (s.acked c)

theorem listedName_eq_some {s : Tracked} {c : FullPath} {n : String} :
    s.listedName c = some n ↔ s.Listed c ∧ n = (recordAt s.db c).filename := by
  unfold listedName nameOf Listed
  rw [recordAt_fullpath]
  split
  · rename_i hc
    rw [Option.some.injEq, and_iff_right hc]
    exact eq_comm
  · rename_i hc
    simp [hc]

theorem listedName_eq_none {s : Tracked} {c : FullPath} :
    s.listedName c = none ↔ ¬ s.Listed c := by
  unfold listedName nameOf Listed
  rw [recordAt_fullpath, ite_eq_right_iff]
  simp

theorem listingsExact_iff {s : Tracked} :
    s.ListingsExact ↔ ∀ D, kindAt s.db D = .dir →
      IsListing FullPath.parentPath s.listedName D (recordAt s.db D).sub := by
  simp only [ListingsExact, IsListing, kindAt_eq_dir, listedName_eq_some, and_imp]

/-- The bits do not change what happens to the store. -/
theorem serve_db (s : Tracked) (r : Request) :
    (s.serve r).map Tracked.db = Spkdfs.serve s.db r := by
  unfold serve Spkdfs.serve
  cases prepare s.db r.now r.op with
  | error x => rfl
  | ok e => cases he : applyEntry s.db e <;> simp [he]

/-- A request is refused and changes nothing, or it is admitted and its entry is
applied. -/
theorem serve_cases {s s' : Tracked} {r : Request} (h : s.serve r = some s') :
    ((¬ ∃ e, prepare s.db r.now r.op = .ok e) ∧ s' = s) ∨
      ∃ e db, prepare s.db r.now r.op = .ok e ∧ applyEntry s.db e = some db ∧
        s' = s.advance r db := by
  unfold serve at h
  cases hp : prepare s.db r.now r.op with
  | error x =>
    rw [hp] at h
    exact Or.inl ⟨by simp, (Option.some.inj h).symm⟩
  | ok e =>
    simp only [hp] at h
    cases hdb : applyEntry s.db e with
    | none => simp [hdb] at h
    | some db =>
      rw [hdb] at h
      exact Or.inr ⟨e, db, rfl, hdb, (Option.some.inj h).symm⟩

end Tracked

/-- The name under which the target is listed after an admitted request. -/
def Op.nameAfter (target : FullPath) (old : Option String) : Op → Option String
  | .mkdir _ => some (target.filename ++ "/")
  | .rm _ => none
  | .put _ _ => old
  | .putOk _ _ _ => if target = .root then none else some target.filename
  | .updateLock _ => old

/-- An admitted request changes the listed name of its own path only. -/
theorem listedName_advance {s : Tracked} {r : Request} {e : Entry} {db : Store}
    (hp : prepare s.db r.now r.op = .ok e) (h : applyEntry s.db e = some db) :
    (s.advance r db).listedName = Function.update s.listedName r.op.target
      (r.op.nameAfter r.op.target (s.listedName r.op.target)) := by
  funext k
  have htarget : e.path = r.op.target := (prepare_spec hp).2
  by_cases hk : k = r.op.target
  · subst hk
    have hrec : recordAt db r.op.target = e.written s.db := by
      rw [← htarget]
      exact recordAt_applyEntry_self h
    rw [Function.update_self, Tracked.listedName, s.advance_acked_target, s.advance_db, hrec]
    obtain ⟨op, now⟩ := r
    cases op with
    | mkdir path =>
      obtain ⟨hroot, _⟩ := target_of_prepare_mkdir hp
      obtain ⟨_, _, _, rfl⟩ := prepare_mkdir_eq_ok.mp hp
      simp [Entry.written, Inode.getDefaultDir, Tracked.nameOf, Op.nameAfter, Inode.filename, hroot]
    | rm path =>
      obtain ⟨_, _, rfl⟩ := prepare_rm_eq_ok.mp hp
      simp [Entry.written, Inode.new, Tracked.nameOf, Op.nameAfter]
    | put path storageType =>
      obtain ⟨_, hdir, _, t, _, rfl⟩ := prepare_put_eq_ok.mp hp
      simp only [Entry.written, Tracked.nameOf, Op.nameAfter, Op.ackedAfter, Tracked.listedName,
        Inode.filename]
      -- A valid record at the target is a file, so its name stays.
      generalize recordAt s.db (Op.put path storageType).target = r at hdir ⊢
      cases hv : r.valid <;> cases hd : r.isDirectory <;> simp [hv, hd] at hdir ⊢
    | putOk path filesize sub =>
      obtain ⟨_, hv, hfile, rfl⟩ := prepare_putOk_eq_ok.mp hp
      simp [Entry.written, Tracked.nameOf, Op.nameAfter, Op.ackedAfter, Entry.path, Inode.unlock,
        Inode.filename, hv, hfile]
    | updateLock path =>
      obtain ⟨_, rfl⟩ := prepare_updateLock_eq_ok.mp hp
      rfl
  · rw [Function.update_of_ne hk, Tracked.listedName, Tracked.listedName,
      s.advance_acked_of_ne db hk, s.advance_db, recordAt_applyEntry_other h (htarget ▸ hk)]
    rfl

/-! ## One request -/

/-- The check that keeps the listings exact.  It asks something of an admitted
request only. -/
def KeepsListings (s : Tracked) (r : Request) : Prop :=
  (∃ e, prepare s.db r.now r.op = .ok e) →
    match r.op with
    | .mkdir _ => ∀ c, s.Listed c → c.parentPath ≠ r.op.target
    | .rm _ =>
      r.op.target = .root ∨ kindAt s.db r.op.target ≠ .dir ∨
        kindAt s.db r.op.target.parentPath ≠ .dir
    | .put _ _ | .putOk _ _ _ | .updateLock _ => True

theorem mem_addName {m n : String} {sub : List String} : m ∈ addName n sub ↔ m ∈ sub ∨ m = n := by
  unfold addName
  split
  · rename_i hn
    refine ⟨Or.inl, ?_⟩
    rintro (hm | rfl)
    · exact hm
    · exact hn
  · simp

theorem nodup_addName {n : String} {sub : List String} (h : sub.Nodup) : (addName n sub).Nodup := by
  unfold addName
  split
  · exact h
  · rename_i hn
    refine List.nodup_append.mpr ⟨h, by simp, fun a ha b hb heq => hn ?_⟩
    rw [← List.mem_singleton.mp hb, ← heq]
    exact ha

theorem mem_removeName {m n : String} {sub : List String} :
    m ∈ removeName n sub ↔ m ∈ sub ∧ m ≠ n := by
  simp [removeName]

/-- The list of a directory that is not the target. -/
theorem sub_applyEntry_ne {db db' : Store} {e : Entry} (h : applyEntry db e = some db')
    {D : FullPath} (hD : D ≠ e.path) :
    (recordAt db' D).sub =
      if D = e.path.parentPath then e.editSub (recordAt db D).sub else (recordAt db D).sub := by
  rw [recordAt_applyEntry h, if_neg hD]
  split <;> rfl

/-- A child of `D` is known from the name under which it is listed, whatever kind
it is listed as. -/
theorem eq_of_listedName {s : Tracked} {c t : FullPath} {n : String}
    (hparent : c.parentPath = t.parentPath) (hc : s.listedName c = some n)
    (hn : n = t.filename ∨ n = t.filename ++ "/") : c = t := by
  obtain ⟨_, hname⟩ := Tracked.listedName_eq_some.mp hc
  have hi : (recordAt s.db c).parentPath = t.parentPath := by
    rw [Inode.parentPath, recordAt_fullpath, hparent]
  rcases hn with hn | hn
  · have := (Inode.eq_of_filename_eq (j := .new t) hi (by rw [← hname, hn]; rfl)).1
    rwa [recordAt_fullpath] at this
  · have := (Inode.eq_of_filename_eq (j := .getDefaultDir t) hi (by rw [← hname, hn]; rfl)).1
    rwa [recordAt_fullpath] at this

section Advance

variable {s : Tracked} {r : Request} {e : Entry} {db : Store}
  (hp : prepare s.db r.now r.op = .ok e) (h : applyEntry s.db e = some db)
include hp h

/-- The listings are exact as soon as those of the target and of its parent are:
no other directory is touched. -/
theorem listingsExact_advance (hs : s.ListingsExact)
    (hself : kindAt db r.op.target = .dir →
      IsListing FullPath.parentPath (s.advance r db).listedName r.op.target
        (recordAt db r.op.target).sub)
    (hparent : r.op.target.parentPath ≠ r.op.target →
      kindAt s.db r.op.target.parentPath = .dir →
      IsListing FullPath.parentPath (s.advance r db).listedName r.op.target.parentPath
        (e.editSub (recordAt s.db r.op.target.parentPath).sub)) :
    (s.advance r db).ListingsExact := by
  have htarget : e.path = r.op.target := (prepare_spec hp).2
  refine Tracked.listingsExact_iff.mpr fun D hdir => ?_
  by_cases hD : D = r.op.target
  · subst hD
    exact hself hdir
  · rw [Tracked.advance_db, kindAt_applyEntry hp h, Function.update_of_ne hD] at hdir
    rw [Tracked.advance_db, sub_applyEntry_ne h (htarget ▸ hD), htarget]
    by_cases hq : D = r.op.target.parentPath
    · subst hq
      rw [if_pos rfl]
      exact hparent hD hdir
    · rw [if_neg hq, listedName_advance hp h]
      exact (isListing_update_of_ne (Ne.symm hq) _).mpr (Tracked.listingsExact_iff.mp hs D hdir)

/-- What exact listings say about the parent of the target. -/
theorem lists_parent_of_advance (hexact : (s.advance r db).ListingsExact)
    (hne : r.op.target.parentPath ≠ r.op.target)
    (hdir : kindAt s.db r.op.target.parentPath = .dir) :
    IsListing FullPath.parentPath (s.advance r db).listedName r.op.target.parentPath
      (e.editSub (recordAt s.db r.op.target.parentPath).sub) := by
  have htarget : e.path = r.op.target := (prepare_spec hp).2
  have hdir' : kindAt db r.op.target.parentPath = .dir := by
    rw [kindAt_applyEntry hp h, Function.update_of_ne hne, hdir]
  have hlists := Tracked.listingsExact_iff.mp hexact _ hdir'
  rwa [Tracked.advance_db, sub_applyEntry_ne h (htarget ▸ hne), htarget, if_pos rfl] at hlists

end Advance

/-- A `mkdir` starts with an empty list, so it must find no listed child. -/
theorem listingsExact_mkdir {s : Tracked} {path : String} {now : UInt64} {e : Entry} {db : Store}
    (hs : s.ListingsExact) (hp : prepare s.db now (.mkdir path) = .ok e)
    (h : applyEntry s.db e = some db) :
    (s.advance ⟨.mkdir path, now⟩ db).ListingsExact ↔
      ∀ c, s.Listed c → c.parentPath ≠ (Op.mkdir path).target := by
  have hname := listedName_advance (r := ⟨.mkdir path, now⟩) hp h
  have hkind := kindAt_applyEntry hp h
  obtain ⟨_, hne⟩ := target_of_prepare_mkdir hp
  obtain ⟨_, _, hself, rfl⟩ := prepare_mkdir_eq_ok.mp hp
  have hempty : (recordAt db (Op.mkdir path).target).sub = [] := by
    have := recordAt_applyEntry_self h
    rw [show recordAt db (Op.mkdir path).target = _ from this]
    rfl
  constructor
  · intro hexact c hc hchild
    have hlists := Tracked.listingsExact_iff.mp hexact (Op.mkdir path).target
      (by rw [Tracked.advance_db, hkind, Function.update_self]; rfl)
    rw [Tracked.advance_db, hempty] at hlists
    have hct : c ≠ (Op.mkdir path).target := by
      rintro rfl
      exact hne hchild
    refine List.not_mem_nil ((hlists.2 (recordAt s.db c).filename).mpr ⟨c, hchild, ?_⟩)
    rw [hname, Function.update_of_ne hct]
    exact Tracked.listedName_eq_some.mpr ⟨hc, rfl⟩
  · intro hnone
    refine listingsExact_advance hp h hs (fun _ => ?_) (fun _ hdir => ?_)
    · rw [hempty]
      refine ⟨List.nodup_nil, fun n => ⟨fun hn => absurd hn List.not_mem_nil, ?_⟩⟩
      rintro ⟨c, hchild, hn⟩
      have hct : c ≠ (Op.mkdir path).target := by
        rintro rfl
        exact hne hchild
      rw [hname, Function.update_of_ne hct] at hn
      exact absurd hchild (hnone c (Tracked.listedName_eq_some.mp hn).1)
    · have hold := Tracked.listingsExact_iff.mp hs _ hdir
      rw [hname]
      refine hold.update_some rfl (Or.inl ?_) (nodup_addName hold.1) fun m => mem_addName
      refine Tracked.listedName_eq_none.mpr fun hc => ?_
      rw [pathExists_iff.mpr (Or.inr hc.2.1)] at hself
      cases hself

/-- A path that is no valid directory is listed under its plain name, if at
all. -/
theorem listedName_of_not_dir {s : Tracked} {p : FullPath} (h : kindAt s.db p ≠ .dir) :
    s.listedName p = none ∨ s.listedName p = some p.filename := by
  by_cases hl : s.Listed p
  · right
    refine Tracked.listedName_eq_some.mpr ⟨hl, ?_⟩
    have hfile : (recordAt s.db p).isDirectory = false := by
      by_contra hd
      exact h (kindAt_eq_dir.mpr ⟨hl.2.1, by simpa using hd⟩)
    rw [Inode.filename, hfile, recordAt_fullpath]
    rfl
  · exact Or.inl (Tracked.listedName_eq_none.mpr hl)

/-- An `rm` removes the plain name, so the path must not be listed as a
directory. -/
theorem listingsExact_rm {s : Tracked} {path : String} {now : UInt64} {e : Entry} {db : Store}
    (hs : s.ListingsExact) (hp : prepare s.db now (.rm path) = .ok e)
    (h : applyEntry s.db e = some db) :
    (s.advance ⟨.rm path, now⟩ db).ListingsExact ↔
      (Op.rm path).target = .root ∨ kindAt s.db (Op.rm path).target ≠ .dir ∨
        kindAt s.db (Op.rm path).target.parentPath ≠ .dir := by
  have hname := listedName_advance (r := ⟨.rm path, now⟩) hp h
  have hkind := kindAt_applyEntry hp h
  obtain ⟨hpath, _, he⟩ := prepare_rm_eq_ok.mp hp
  constructor
  · intro hexact
    by_contra hcond
    simp only [not_or, not_not] at hcond
    obtain ⟨hroot, hdir, hpdir⟩ := hcond
    have hne : (Op.rm path).target.parentPath ≠ (Op.rm path).target :=
      FullPath.parentPath_ne_self hroot (FullPath.set_text_ne_empty hpath)
    have hold := Tracked.listingsExact_iff.mp hs _ hpdir
    have hnew := lists_parent_of_advance hp h hexact hne hpdir
    obtain ⟨hvalid, hisdir⟩ := kindAt_eq_dir.mp hdir
    have hlisted : s.listedName (Op.rm path).target =
        some ((Op.rm path).target.filename ++ "/") := by
      refine Tracked.listedName_eq_some.mpr ⟨⟨hroot, hvalid, Or.inl hisdir⟩, ?_⟩
      rw [Inode.filename, hisdir, recordAt_fullpath]
      rfl
    -- The name with the slash was in the list, and the entry removes the name without it.
    have hmem : (Op.rm path).target.filename ++ "/" ∈
        e.editSub (recordAt s.db (Op.rm path).target.parentPath).sub := by
      rw [he]
      exact mem_removeName.mpr ⟨(hold.2 _).mpr ⟨_, rfl, hlisted⟩,
        FullPath.filename_slash_ne _ _⟩
    obtain ⟨c, hc, hcname⟩ := (hnew.2 _).mp hmem
    rw [hname] at hcname
    by_cases hct : c = (Op.rm path).target
    · rw [hct, Function.update_self] at hcname
      cases hcname
    · rw [Function.update_of_ne hct] at hcname
      exact hct (eq_of_listedName hc hcname (Or.inr rfl))
  · intro hcond
    refine listingsExact_advance hp h hs (fun hdir => ?_) (fun hne hpdir => ?_)
    · rw [hkind, Function.update_self] at hdir
      cases hdir
    · have hold := Tracked.listingsExact_iff.mp hs _ hpdir
      have hnotdir : kindAt s.db (Op.rm path).target ≠ .dir := by
        rcases hcond with hroot | hnd | hnd
        · exact absurd hroot (FullPath.ne_root_of_parentPath_ne hne)
        · exact hnd
        · exact absurd hpdir hnd
      rw [hname, he]
      refine hold.update_none (listedName_of_not_dir hnotdir) (fun c hc hcname => ?_)
        (hold.1.filter _) fun m => mem_removeName
      exact eq_of_listedName hc hcname (Or.inl rfl)

/-- An admitted request keeps the listings exact exactly when it meets the
check. -/
theorem listingsExact_advance_iff {s : Tracked} {r : Request} {e : Entry} {db : Store}
    (hs : s.ListingsExact) (hp : prepare s.db r.now r.op = .ok e)
    (h : applyEntry s.db e = some db) : (s.advance r db).ListingsExact ↔ KeepsListings s r := by
  have hadmitted : ∃ e, prepare s.db r.now r.op = .ok e := ⟨e, hp⟩
  rw [KeepsListings, imp_iff_right hadmitted]
  have hname := listedName_advance hp h
  have hkind := kindAt_applyEntry hp h
  obtain ⟨op, now⟩ := r
  cases op with
  | mkdir path => exact listingsExact_mkdir hs hp h
  | rm path => exact listingsExact_rm hs hp h
  | put path storageType =>
    refine iff_of_true (listingsExact_advance hp h hs (fun hdir => ?_) fun _ hpdir => ?_) trivial
    · rw [hkind, Function.update_self] at hdir
      cases hdir
    · obtain ⟨_, _, _, t, _, rfl⟩ := prepare_put_eq_ok.mp hp
      rw [hname, Op.nameAfter, Function.update_eq_self]
      exact Tracked.listingsExact_iff.mp hs _ hpdir
  | putOk path filesize sub =>
    obtain ⟨_, hvalid, hfile, rfl⟩ := prepare_putOk_eq_ok.mp hp
    have hnotdir : kindAt s.db (Op.putOk path filesize sub).target ≠ .dir := by
      rw [ne_eq, kindAt_eq_dir, hfile]
      simp
    refine iff_of_true (listingsExact_advance hp h hs (fun hdir => ?_) fun hne hpdir => ?_) trivial
    · rw [hkind, Function.update_self] at hdir
      exact absurd hdir hnotdir
    · have hroot : (Op.putOk path filesize sub).target ≠ .root :=
        FullPath.ne_root_of_parentPath_ne hne
      have hold := Tracked.listingsExact_iff.mp hs _ hpdir
      rw [hname, Op.nameAfter, if_neg hroot]
      refine hold.update_some rfl (listedName_of_not_dir hnotdir) (nodup_addName hold.1) fun m => ?_
      rw [Entry.editSub, mem_addName, Inode.filename, hfile]
      simp
  | updateLock path =>
    obtain ⟨_, rfl⟩ := prepare_updateLock_eq_ok.mp hp
    have hrec := recordAt_applyEntry_self h
    rw [(prepare_spec hp).2] at hrec
    refine iff_of_true (listingsExact_advance hp h hs (fun hdir => ?_) fun _ hpdir => ?_) trivial
    · rw [hkind, Function.update_self] at hdir
      rw [hname, Op.nameAfter, Function.update_eq_self, hrec]
      exact Tracked.listingsExact_iff.mp hs _ hdir
    · rw [hname, Op.nameAfter, Function.update_eq_self]
      exact Tracked.listingsExact_iff.mp hs _ hpdir

/-! ## Whole histories -/

theorem listingsExact_init : Tracked.init.ListingsExact := by
  intro D hv hd
  have hempty : ∀ k, ¬ Stored Tracked.init.db k := fun k hk => hk (KeyedMap.get_empty k)
  have hnone : ∀ c, ¬ Tracked.init.Listed c := by
    rintro c ⟨hroot, hv, _⟩
    exact hempty c (stored_of_valid hroot hv)
  have hsub : (recordAt Tracked.init.db D).sub = [] := by
    rw [recordAt_of_not_stored (hempty D)]
    split <;> rfl
  rw [hsub]
  refine ⟨List.nodup_nil, fun n => ⟨fun hn => absurd hn List.not_mem_nil, ?_⟩⟩
  rintro ⟨c, _, hc, _⟩
  exact absurd hc (hnone c)

/-- A removed path is listed under no spelling. -/
theorem Tracked.ListingsExact.not_mem {s : Tracked} (hs : s.ListingsExact) {p : FullPath}
    (hdir : kindAt s.db p.parentPath = .dir) (hp : (recordAt s.db p).valid = false) :
    p.filename ∉ (recordAt s.db p.parentPath).sub ∧
      p.filename ++ "/" ∉ (recordAt s.db p.parentPath).sub := by
  have hnot : ∀ n, n = p.filename ∨ n = p.filename ++ "/" →
      n ∉ (recordAt s.db p.parentPath).sub := by
    intro n hn hmem
    obtain ⟨c, hc, hname⟩ := ((Tracked.listingsExact_iff.mp hs _ hdir).2 n).mp hmem
    have hvalid := (Tracked.listedName_eq_some.mp hname).1.2.1
    rw [eq_of_listedName hc hname hn, hp] at hvalid
    cases hvalid
  exact ⟨hnot _ (Or.inl rfl), hnot _ (Or.inr rfl)⟩

/-- A request keeps the listings exact exactly when it meets the check. -/
theorem listingsExact_serve_iff {s s' : Tracked} {r : Request} (hs : s.ListingsExact)
    (h : s.serve r = some s') : s'.ListingsExact ↔ KeepsListings s r := by
  rcases Tracked.serve_cases h with ⟨hrefused, rfl⟩ | ⟨e, db, hp, hdb, rfl⟩
  · exact iff_of_true hs fun hadmitted => absurd hadmitted hrefused
  · exact listingsExact_advance_iff hs hp hdb

/-- A history in which every request meets the check keeps the listings exact, so
that a removed path is listed under no spelling, and a further request keeps them
exact exactly when it meets the check too. -/
theorem listingsExact_of_keepsListings {s : Tracked}
    (h : Runs.Reach Tracked.serve KeepsListings .init s) :
    s.ListingsExact ∧
      (∀ p, kindAt s.db p.parentPath = .dir → (recordAt s.db p).valid = false →
        p.filename ∉ (recordAt s.db p.parentPath).sub ∧
          p.filename ++ "/" ∉ (recordAt s.db p.parentPath).sub) ∧
      ∀ r s', s.serve r = some s' → (s'.ListingsExact ↔ KeepsListings s r) := by
  have hs : s.ListingsExact :=
    h.invariant listingsExact_init
      fun _ _ _ _ hs hok hstep => (listingsExact_serve_iff hs hstep).mpr hok
  exact ⟨hs, fun p => hs.not_mem, fun r s' hstep => listingsExact_serve_iff hs hstep⟩

/-- Two files, of which the first is removed again. -/
def listingRequests : List Request :=
  [⟨.put "/f" "RE<3,16>", 100⟩, ⟨.putOk "/f" 5 ["x"], 101⟩, ⟨.put "/g" "RE<3,16>", 102⟩,
    ⟨.putOk "/g" 5 ["y"], 103⟩, ⟨.rm "/f", 104⟩]

/-- The history of `listingRequests` leaves an exact listing of the root, with the
second file only. -/
theorem listingsExact_listingRequests :
    ∃ s, Runs.Reach Tracked.serve KeepsListings .init s ∧ s.ListingsExact ∧
      (recordAt s.db .root).sub = ["g"] := by
  have hrun : ∃ s, Runs.Reach Tracked.serve
      (fun s r => r.op.opType ≠ .opMkdir ∧ kindAt s.db r.op.target ≠ .dir) .init s ∧
      decide ((recordAt s.db .root).sub = ["g"]) = true :=
    Runs.exists_reach_of_any_guarded listingRequests (by decide +kernel)
  obtain ⟨s, hreach, hsub⟩ := hrun
  replace hreach : Runs.Reach Tracked.serve KeepsListings .init s := by
    refine hreach.mono fun s r hok _ => ?_
    obtain ⟨op, now⟩ := r
    cases op with
    | mkdir path => exact absurd rfl hok.1
    | rm path => exact Or.inr (Or.inl hok.2)
    | put path storageType => trivial
    | putOk path filesize sub => trivial
    | updateLock path => trivial
  exact ⟨s, hreach, (listingsExact_of_keepsListings hreach).1, of_decide_eq_true hsub⟩

/-- A directory that is made and removed stays in the listing of its parent. -/
theorem not_listingsExact_of_rm :
    ¬ ∀ s, Runs.Reachable Tracked.serve .init s → s.ListingsExact := by
  intro h
  have hrun : ∃ s, Runs.Reachable Tracked.serve .init s ∧
      (kindAt s.db .root = .dir ∧ (recordAt s.db (.set "/a")).valid = false ∧
        "a/" ∈ (recordAt s.db .root).sub : Bool) = true :=
    Runs.exists_reachable_of_any [⟨.mkdir "/a", 100⟩, ⟨.rm "/a", 101⟩] (by decide +kernel)
  obtain ⟨s, hreach, htest⟩ := hrun
  obtain ⟨hdir, hremoved, hmem⟩ := of_decide_eq_true htest
  have hparent : (FullPath.set "/a").parentPath = .root := by decide
  have hnot := ((h s hreach).not_mem (by rwa [hparent]) hremoved).2
  rw [hparent] at hnot
  exact hnot hmem

end Spkdfs
