import Spkdfs.Client.Mount
import Spkdfs.Common.Paths
import Spkdfs.Metadata.Listing

/-!
# The names of a mounted file system

What `spkdfs_readdir` shows of a directory, beside what `spkdfs_getattr` answers for the paths
in it.  The one reads the list in the record of the directory and cuts off the slashes, the
other one reads the records of the children.

As long as the listings are exact, both show the same: `readdir_getattr`.
-/

namespace Spkdfs

open RocksDB Effects SDK

namespace Mount

variable {m : Mount} {t : Attempts} {D : FullPath}

/-! ## Attributes -/

@[simp] theorem isDir_stat (inode : Inode) : (stat inode).isDir = inode.isDirectory := by
  unfold stat Stat.isDir
  cases inode.isDirectory <;> simp [sIfDir, sIfReg]

theorem text_ne_empty (habs : PathText.isAbsolute D.text.toList = true) : D.text ≠ "" := by
  intro h
  rw [h] at habs
  cases habs

theorem namenode_ls_text (habs : PathText.isAbsolute D.text.toList = true) (db : Store) :
    Namenode.ls db D.text =
      if (recordAt db D).valid then .ok (recordAt db D)
      else .error (.message ⟨.pathNotExistsException, D.text⟩) := by
  rw [Namenode.ls, if_neg (text_ne_empty habs), FullPath.set_text, RocksDB.ls, ← recordAt,
    recordAt_fullpath]
  cases (recordAt db D).valid <;> rfl

/-- `FUSE::ls` of an absolute path, with a request that is answered. -/
theorem run_ls (habs : PathText.isAbsolute D.text.toList = true) (hsdk : m.sdk ≠ none)
    (ht : t.first.fate = .answered) :
    (ls D.text t).run m =
      if (recordAt m.db D).valid then .ok (recordAt m.db D) m
      else .error (.thrown (.message ⟨.pathNotExistsException, D.text⟩)) m := by
  obtain ⟨sdk, hsome⟩ := Option.ne_none_iff_exists'.mp hsdk
  have hcall : sdkLs D.text t.first = onFst (getRemoteInode D.text) := by
    rw [sdkLs, ht]
    rfl
  have hview : (m.view sdk).1.db = m.db := rfl
  have hls := namenode_ls_text habs m.db
  have hremote : (getRemoteInode D.text).run (m.view sdk).1 =
      (lift (rethrow (Namenode.ls m.db D.text)) : Call Inode).run (m.view sdk).1 := rfl
  rw [hls] at hremote
  cases hvalid : (recordAt m.db D).valid with
  | true =>
    rw [if_pos hvalid] at hremote
    have hrun : (sdkLs D.text t.first).run (m.view sdk) = .ok (recordAt m.db D) (m.view sdk) := by
      rw [hcall]
      exact run_onFst_of_ok hremote
    exact run_orElse_of_ok ((run_onSdk_of_ok hsome hrun).trans (by rw [ofView_view hsome]))
  | false =>
    rw [if_neg (by rw [hvalid]; exact Bool.false_ne_true)] at hremote
    have hrun : (sdkLs D.text t.first).run (m.view sdk) =
        .error (.thrown (.message ⟨.pathNotExistsException, D.text⟩)) (m.view sdk) := by
      rw [hcall]
      exact run_onFst_of_error hremote
    have hfirst := run_onSdk_of_error hsome hrun
    rw [ofView_view hsome] at hfirst
    exact run_orElse_of_error hfirst

theorem run_spkdfsGetattr (habs : PathText.isAbsolute D.text.toList = true) (hsdk : m.sdk ≠ none)
    (ht : t.first.fate = .answered) :
    (spkdfsGetattr D.text t).run m =
      .ok (if (recordAt m.db D).valid then (some (stat (recordAt m.db D)), 0)
        else (none, -enoent)) m := by
  have hls := run_ls habs hsdk ht
  cases hvalid : (recordAt m.db D).valid with
  | true =>
    rw [hvalid] at hls
    exact run_recover_of_ok (run_bind_of_ok hls _)
  | false =>
    rw [hvalid] at hls
    exact run_recover_of_error (run_bind_of_error hls _)

/-! ## Names -/

/-- A name of a list without its slash. -/
def shownName (str : String) : String :=
  if str.toList.getLast? = some '/' then .ofList str.toList.dropLast else str

theorem fillName_of_ne {str : String} (h : str ≠ "") : fillName str = .ok (shownName str) := by
  have hne : str.toList ≠ [] := fun hnil => h (String.toList_inj.mp hnil)
  rw [fillName, shownName, List.getLast?_eq_some_getLast hne]
  simp only [Option.some.injEq]

theorem mapM_fillName {sub : List String} (h : "" ∉ sub) :
    sub.mapM fillName = .ok (sub.map shownName) := by
  induction sub with
  | nil => rfl
  | cons n sub ih =>
    rw [List.mapM_cons, fillName_of_ne fun hn => h (hn ▸ List.mem_cons_self),
      ih fun hmem => h (List.mem_cons_of_mem _ hmem)]
    rfl

/-- What is shown of the name of an inode. -/
theorem shownName_filename (inode : Inode) :
    shownName inode.filename = inode.fullpath.filename := by
  rw [shownName, Inode.filename]
  cases inode.isDirectory with
  | true =>
    rw [if_pos rfl, String.toList_append]
    simp
  | false =>
    rw [if_neg Bool.false_ne_true, if_neg]
    intro hlast
    exact inode.fullpath.not_slash_mem_filename (List.mem_of_getLast? hlast)

section Listings

variable {s : Tracked}

/-- The children of an absolute path are absolute, and their names can be shown. -/
theorem filename_ne_of_parent {c : FullPath} (habs : PathText.isAbsolute D.text.toList = true)
    (hparent : c.parentPath = D) (hroot : c ≠ .root) :
    PathText.isAbsolute c.text.toList = true ∧ c.filename ≠ "" ∧ c.filename ≠ "." ∧
      c.filename ≠ ".." := by
  have hc : PathText.isAbsolute c.text.toList = true :=
    FullPath.isAbsolute_of_parentPath (hparent ▸ habs)
  exact ⟨hc, FullPath.filename_ne hc hroot⟩

theorem mem_shown_iff (hs : s.ListingsExact) (hvalid : (recordAt s.db D).valid = true)
    (hdir : (recordAt s.db D).isDirectory = true) {n : String} :
    n ∈ (recordAt s.db D).sub.map shownName ↔
      ∃ c, c.parentPath = D ∧ s.Listed c ∧ n = c.filename := by
  have hexact := (hs D hvalid hdir).2
  have hshown : ∀ c, shownName (recordAt s.db c).filename = c.filename := fun c => by
    rw [shownName_filename, recordAt_fullpath]
  rw [List.mem_map]
  constructor
  · rintro ⟨n', hn', rfl⟩
    obtain ⟨c, hparent, hlisted, rfl⟩ := (hexact n').mp hn'
    exact ⟨c, hparent, hlisted, hshown c⟩
  · rintro ⟨c, hparent, hlisted, rfl⟩
    exact ⟨_, (hexact _).mpr ⟨c, hparent, hlisted, rfl⟩, hshown c⟩

/-- Two children never share the name that is shown. -/
theorem nodup_shown (hs : s.ListingsExact) (hvalid : (recordAt s.db D).valid = true)
    (hdir : (recordAt s.db D).isDirectory = true) :
    ((recordAt s.db D).sub.map shownName).Nodup := by
  obtain ⟨hnodup, hexact⟩ := hs D hvalid hdir
  refine hnodup.map_on fun n hn n' hn' heq => ?_
  obtain ⟨c, hparent, -, rfl⟩ := (hexact n).mp hn
  obtain ⟨c', hparent', -, rfl⟩ := (hexact n').mp hn'
  rw [shownName_filename, shownName_filename, recordAt_fullpath, recordAt_fullpath] at heq
  rw [FullPath.eq_of_parentPath_of_filename (hparent.trans hparent'.symm) heq]

theorem run_spkdfsReaddir (hs : s.ListingsExact) (hdb : m.db = s.db) (hsdk : m.sdk ≠ none)
    (ht : t.first.fate = .answered) (habs : PathText.isAbsolute D.text.toList = true)
    (hvalid : (recordAt s.db D).valid = true) (hdir : (recordAt s.db D).isDirectory = true) :
    (spkdfsReaddir D.text t).run m =
      .ok ("." :: ".." :: (recordAt s.db D).sub.map shownName, 0) m := by
  have hls := run_ls habs hsdk ht
  rw [hdb, if_pos hvalid] at hls
  have hempty : "" ∉ (recordAt s.db D).sub := by
    intro hmem
    obtain ⟨c, hparent, hlisted, hname⟩ := ((hs D hvalid hdir).2 "").mp hmem
    have hshown := congrArg shownName hname
    rw [shownName_filename, recordAt_fullpath] at hshown
    exact (filename_ne_of_parent habs hparent hlisted.1).2.1 hshown.symm
  refine (run_bind_of_ok hls _).trans ?_
  rw [hdir, mapM_fillName hempty]
  rfl

/-- As long as the listings are exact, and for an `SDK` whose requests are answered: for a
directory, `spkdfs_readdir` returns, and it shows no name twice.  Besides `.` and `..` these are
names of paths in the directory, and the name of such a path is shown exactly if
`spkdfs_getattr` knows the path, as a directory or as a file that was acknowledged. -/
theorem readdir_getattr (h : Runs.Reach Tracked.serve KeepsListings .init s) (hdb : m.db = s.db)
    (hsdk : m.sdk ≠ none) (ht : t.first.fate = .answered)
    (habs : PathText.isAbsolute D.text.toList = true) {st : Stat}
    (hgetattr : (spkdfsGetattr D.text t).run m = .ok (some st, 0) m) (hst : st.isDir = true) :
    ∃ names, (spkdfsReaddir D.text t).run m = .ok (names, 0) m ∧ names.Nodup ∧
      (∀ n ∈ names, n = "." ∨ n = ".." ∨
        ∃ c : FullPath, c.parentPath = D ∧ c ≠ .root ∧ n = c.filename) ∧
      ∀ c : FullPath, c.parentPath = D → c ≠ .root →
        ∃ answer, (spkdfsGetattr c.text t).run m = .ok answer m ∧ (c.filename ∈ names ↔
          ∃ st, answer = (some st, 0) ∧ (st.isDir = true ∨ s.acked c = true)) := by
  have hs : s.ListingsExact := h.invariant listingsExact_init fun _ _ _ _ hs hok hstep =>
    (listingsExact_serve_iff hs hstep).mpr hok
  obtain ⟨hvalid, hdir⟩ : (recordAt s.db D).valid = true ∧
      (recordAt s.db D).isDirectory = true := by
    rw [run_spkdfsGetattr habs hsdk ht, hdb] at hgetattr
    split at hgetattr
    · rename_i hvalid
      cases hgetattr
      exact ⟨hvalid, by rw [← isDir_stat]; exact hst⟩
    · cases hgetattr
  have hmem : ∀ n, n ∈ (recordAt s.db D).sub.map shownName ↔ _ := fun n =>
    mem_shown_iff hs hvalid hdir
  refine ⟨_, run_spkdfsReaddir hs hdb hsdk ht habs hvalid hdir, ?_, fun n hn => ?_,
    fun c hparent hroot => ?_⟩
  · have hdots : ∀ n ∈ (recordAt s.db D).sub.map shownName, n ≠ "." ∧ n ≠ ".." := by
      intro n hn
      obtain ⟨c, hparent, hlisted, rfl⟩ := (hmem n).mp hn
      exact (filename_ne_of_parent habs hparent hlisted.1).2.2
    refine List.nodup_cons.mpr ⟨fun hn => ?_, List.nodup_cons.mpr ⟨fun hn => ?_,
      nodup_shown hs hvalid hdir⟩⟩
    · rcases List.mem_cons.mp hn with hdot | hn
      · exact absurd hdot (by decide)
      · exact (hdots _ hn).1 rfl
    · exact (hdots _ hn).2 rfl
  · rcases List.mem_cons.mp hn with hdot | hn
    · exact Or.inl hdot
    · rcases List.mem_cons.mp hn with hdots | hn
      · exact Or.inr (Or.inl hdots)
      · obtain ⟨c, hparent, hlisted, hname⟩ := (hmem n).mp hn
        exact Or.inr (Or.inr ⟨c, hparent, hlisted.1, hname⟩)
  · obtain ⟨hc, -, hdot, hdots⟩ := filename_ne_of_parent habs hparent hroot
    refine ⟨_, run_spkdfsGetattr hc hsdk ht, ?_⟩
    have hlisted : c.filename ∈ "." :: ".." :: (recordAt s.db D).sub.map shownName ↔
        s.Listed c := by
      rw [List.mem_cons, List.mem_cons, hmem]
      constructor
      · rintro (h | h | ⟨c', hparent', hlisted, hname⟩)
        · exact absurd h hdot
        · exact absurd h hdots
        · rw [FullPath.eq_of_parentPath_of_filename (hparent.trans hparent'.symm) hname]
          exact hlisted
      · exact fun hlisted => Or.inr (Or.inr ⟨c, hparent, hlisted, rfl⟩)
    rw [hlisted, hdb, Tracked.Listed, and_iff_right hroot]
    constructor
    · rintro ⟨hv, hkind⟩
      rw [if_pos hv]
      exact ⟨_, rfl, by rw [isDir_stat]; exact hkind⟩
    · rintro ⟨st, hanswer, hkind⟩
      split at hanswer
      · rename_i hv
        cases hanswer
        rw [isDir_stat] at hkind
        exact ⟨hv, hkind⟩
      · cases hanswer

end Listings

/-- A file that was acknowledged, and one that was not. -/
def namesRequests : List Request :=
  [⟨.put "/f" "RE<3,16>", 100⟩, ⟨.putOk "/f" 5 ["x"], 101⟩, ⟨.put "/g" "RE<3,16>", 102⟩]

/-- `spkdfs_getattr` knows both of them, and `spkdfs_readdir` shows the first one. -/
theorem readdir_getattr_names :
    ∃ s m, Runs.Reach Tracked.serve KeepsListings .init s ∧ m.db = s.db ∧
      (∃ st, (spkdfsGetattr "/g" ⟨answered, .ok (), answered⟩).run m = .ok (some st, 0) m) ∧
      ∃ names, (spkdfsReaddir "/" ⟨answered, .ok (), answered⟩).run m = .ok (names, 0) m ∧
        names.Nodup ∧ "f" ∈ names ∧ "g" ∉ names := by
  have hrun : ∃ s, Runs.Reach Tracked.serve
      (fun _ r => r.op.opType ≠ .opMkdir ∧ r.op.opType ≠ .opRm) .init s ∧
      decide ((recordAt s.db .root).valid = true ∧ (recordAt s.db .root).isDirectory = true ∧
        (recordAt s.db (.set "/f")).valid = true ∧ s.acked (.set "/f") = true ∧
        (recordAt s.db (.set "/g")).valid = true ∧
        (recordAt s.db (.set "/g")).isDirectory = false ∧ s.acked (.set "/g") = false) = true :=
    Runs.exists_reach_of_any_guarded namesRequests (by decide +kernel)
  obtain ⟨s, hreach, htest⟩ := hrun
  replace hreach : Runs.Reach Tracked.serve KeepsListings .init s := by
    refine hreach.mono fun s r hok _ => ?_
    obtain ⟨op, now⟩ := r
    cases op with
    | mkdir path => exact absurd rfl hok.1
    | rm path => exact absurd rfl hok.2
    | put path storageType => trivial
    | putOk path filesize sub => trivial
    | updateLock path => trivial
  obtain ⟨hroot, hdir, hf, hacked, hg, hfile, hnot⟩ := of_decide_eq_true htest
  have hsdk : (mounted s.db fun _ => none).sdk ≠ none := Option.some_ne_none _
  have hgetattr : ∀ c : FullPath, PathText.isAbsolute c.text.toList = true →
      (recordAt s.db c).valid = true →
      (spkdfsGetattr c.text ⟨answered, .ok (), answered⟩).run (mounted s.db fun _ => none) =
        .ok (some (stat (recordAt s.db c)), 0) (mounted s.db fun _ => none) := by
    intro c habs hvalid
    rw [run_spkdfsGetattr habs hsdk rfl]
    exact congrArg (EStateM.Result.ok · _) (if_pos hvalid)
  obtain ⟨names, hnames, hnodup, -, hchildren⟩ := readdir_getattr hreach rfl hsdk rfl
    (show PathText.isAbsolute FullPath.root.text.toList = true by decide)
    (hgetattr .root (by decide) hroot) ((isDir_stat _).trans hdir)
  obtain ⟨answerF, hanswerF, hshownF⟩ := hchildren (.set "/f") (by decide) (by decide)
  obtain ⟨answerG, hanswerG, hshownG⟩ := hchildren (.set "/g") (by decide) (by decide)
  have hgetattrF := hgetattr (.set "/f") (by decide) hf
  have hgetattrG := hgetattr (.set "/g") (by decide) hg
  rw [hgetattrF] at hanswerF
  rw [hgetattrG] at hanswerG
  cases hanswerF
  cases hanswerG
  refine ⟨s, mounted s.db fun _ => none, hreach, rfl, ⟨_, hgetattrG⟩, names, hnames, hnodup,
    hshownF.mpr ⟨_, rfl, Or.inr hacked⟩, fun hmem => ?_⟩
  obtain ⟨st, hst, hkind⟩ := hshownG.mp hmem
  cases hst
  rw [isDir_stat, hfile, hnot] at hkind
  simp at hkind

end Mount

end Spkdfs
