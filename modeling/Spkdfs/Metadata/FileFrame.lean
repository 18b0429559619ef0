import Spkdfs.Metadata.Listing

/-!
# What a request does to other files

The list of a record has two meanings: the names of the children of a directory,
and the block locations of a file.  `internal_mkdir`, `internal_put_ok` and
`internal_rm` edit the list of the parent of their path, and neither they nor
the handlers look at the kind of the parent.  `EXPECTED_DIR_EXCEPTION` exists
for this case and is never thrown.

So a request about a path below a file edits the blocks of that file.
`sub_filesize_applyEntry_iff` says exactly when a request leaves a file alone.
-/

namespace Spkdfs

open RocksDB

/-- The request is about the path itself, and it is one that sets the blocks or
removes the path. -/
def Op.SetsContentOf (op : Op) (k : FullPath) : Prop :=
  match op with
  | .rm _ | .putOk _ _ _ => op.target = k
  | .mkdir _ | .put _ _ | .updateLock _ => False

instance (op : Op) (k : FullPath) : Decidable (op.SetsContentOf k) :=
  match op with
  | .rm _ | .putOk _ _ _ => inferInstanceAs (Decidable (_ = _))
  | .mkdir _ | .put _ _ | .updateLock _ => inferInstanceAs (Decidable False)

/-- The request is not about a child of `k`, or the name that it adds or removes
makes no difference to the list of `k`. -/
def Op.SparesListOf (op : Op) (db : Store) (k : FullPath) : Prop :=
  match op with
  | .mkdir _ => op.target.parentPath = k → op.target.filename ++ "/" ∈ (recordAt db k).sub
  | .rm _ => op.target.parentPath = k → op.target.filename ∉ (recordAt db k).sub
  | .putOk _ _ _ => op.target.parentPath = k → op.target.filename ∈ (recordAt db k).sub
  | .put _ _ | .updateLock _ => True

theorem addName_eq_self {n : String} {sub : List String} : addName n sub = sub ↔ n ∈ sub := by
  constructor
  · intro h
    rw [← h]
    exact mem_addName.mpr (Or.inr rfl)
  · exact fun hn => if_pos hn

theorem removeName_eq_self {n : String} {sub : List String} : removeName n sub = sub ↔ n ∉ sub := by
  rw [removeName, List.filter_eq_self]
  constructor
  · intro h hn
    simpa using h n hn
  · intro hn m hm
    have : m ≠ n := by
      rintro rfl
      exact hn hm
    simpa using this

/-- The list and the size of a path that is not the entry's own. -/
theorem sub_filesize_applyEntry_ne {db db' : Store} {e : Entry} (h : applyEntry db e = some db')
    {k : FullPath} (hk : k ≠ e.path) :
    (recordAt db' k).sub = (recordAt db k).sub ∧
        (recordAt db' k).filesize = (recordAt db k).filesize ↔
      (e.path.parentPath = k → e.editSub (recordAt db k).sub = (recordAt db k).sub) := by
  rw [recordAt_applyEntry h, if_neg hk]
  by_cases hq : k = e.path.parentPath
  · simp [← hq]
  · rw [if_neg hq]
    exact iff_of_true ⟨rfl, rfl⟩ fun hc => absurd hc.symm hq

/-- An `OP_PUT` that writes back the list and the size it has read. -/
theorem sub_filesize_applyEntry_put {db db' : Store} {i : Inode}
    (h : applyEntry db ⟨.opPut, i⟩ = some db') (hsub : i.sub = (recordAt db i.fullpath).sub)
    (hsize : i.filesize = (recordAt db i.fullpath).filesize) (k : FullPath) :
    (recordAt db' k).sub = (recordAt db k).sub ∧
      (recordAt db' k).filesize = (recordAt db k).filesize := by
  by_cases hk : k = i.fullpath
  · subst hk
    rw [show recordAt db' i.fullpath = i from recordAt_applyEntry_self h]
    exact ⟨hsub, hsize⟩
  · exact (sub_filesize_applyEntry_ne h hk).mpr fun _ => rfl

/-- An admitted request other than the `put_ok` and the `rm` of a valid file leaves
the blocks and the size of the file as they are if and only if it is not about a
path below the file, or the name that it adds is a block of the file already, or
the name that it removes is no block of the file. -/
theorem sub_filesize_applyEntry_iff {db db' : Store} {r : Request} {e : Entry} {k : FullPath}
    (hvalid : (recordAt db k).valid = true) (hp : prepare db r.now r.op = .ok e)
    (h : applyEntry db e = some db') (hset : ¬ r.op.SetsContentOf k) :
    (recordAt db' k).sub = (recordAt db k).sub ∧
        (recordAt db' k).filesize = (recordAt db k).filesize ↔
      r.op.SparesListOf db k := by
  have htarget : e.path = r.op.target := (prepare_spec hp).2
  obtain ⟨op, now⟩ := r
  cases op with
  | mkdir path =>
    obtain ⟨_, _, hself, rfl⟩ := prepare_mkdir_eq_ok.mp hp
    have hk : k ≠ (Op.mkdir path).target := by
      rintro rfl
      rw [pathExists_iff.mpr (Or.inr hvalid)] at hself
      cases hself
    rw [sub_filesize_applyEntry_ne h hk, htarget]
    exact imp_congr_right fun _ => addName_eq_self
  | rm path =>
    have hk : k ≠ e.path := fun hc => hset (hc.trans htarget).symm
    obtain ⟨_, _, rfl⟩ := prepare_rm_eq_ok.mp hp
    rw [sub_filesize_applyEntry_ne h hk, htarget]
    exact imp_congr_right fun _ => removeName_eq_self
  | put path storageType =>
    obtain ⟨_, _, _, t, _, rfl⟩ := prepare_put_eq_ok.mp hp
    exact iff_of_true (sub_filesize_applyEntry_put h (by simp) (by simp) k) trivial
  | putOk path filesize sub =>
    have hk : k ≠ e.path := fun hc => hset (hc.trans htarget).symm
    obtain ⟨_, _, hfile, rfl⟩ := prepare_putOk_eq_ok.mp hp
    rw [sub_filesize_applyEntry_ne h hk, htarget]
    refine imp_congr_right fun _ => ?_
    rw [Entry.editSub, addName_eq_self, Inode.filename, hfile]
    simp
  | updateLock path =>
    obtain ⟨_, rfl⟩ := prepare_updateLock_eq_ok.mp hp
    exact iff_of_true (sub_filesize_applyEntry_put h (by simp [Inode.updateDdlLock])
      (by simp [Inode.updateDdlLock]) k) trivial

/-- A file with one block. -/
def fileRequests : List Request := [⟨.put "/f" "RE<3,16>", 100⟩, ⟨.putOk "/f" 5 ["x"], 101⟩]

/-- A history that ends with the file and admits two `mkdir` requests, one next to
the file and one below it. -/
theorem exists_served_fileRequests :
    ∃ db, Served db ∧ (recordAt db (.set "/f")).valid = true ∧
      (recordAt db (.set "/f")).isDirectory = false ∧ "d/" ∉ (recordAt db (.set "/f")).sub ∧
      (acceptOne db ⟨.mkdir "/d", 102⟩).isSome = true ∧
      (acceptOne db ⟨.mkdir "/f/d", 102⟩).isSome = true := by
  have hrun : ∃ db, Served db ∧ ((recordAt db (.set "/f")).valid = true ∧
      (recordAt db (.set "/f")).isDirectory = false ∧ "d/" ∉ (recordAt db (.set "/f")).sub ∧
      (acceptOne db ⟨.mkdir "/d", 102⟩).isSome = true ∧
      (acceptOne db ⟨.mkdir "/f/d", 102⟩).isSome = true : Bool) = true :=
    Runs.exists_reachable_of_any fileRequests (by decide +kernel)
  obtain ⟨db, hserved, htest⟩ := hrun
  exact ⟨db, hserved, of_decide_eq_true htest⟩

/-- A `mkdir` next to the file leaves it alone; a `mkdir` below it does not. -/
theorem sub_filesize_fileRequests :
    ∃ db db₁ db₂, Served db ∧ acceptOne db ⟨.mkdir "/d", 102⟩ = some db₁ ∧
      acceptOne db ⟨.mkdir "/f/d", 102⟩ = some db₂ ∧
      ((recordAt db₁ (.set "/f")).sub = (recordAt db (.set "/f")).sub ∧
        (recordAt db₁ (.set "/f")).filesize = (recordAt db (.set "/f")).filesize) ∧
      ¬ ((recordAt db₂ (.set "/f")).sub = (recordAt db (.set "/f")).sub ∧
        (recordAt db₂ (.set "/f")).filesize = (recordAt db (.set "/f")).filesize) := by
  obtain ⟨db, hserved, hvalid, _, hnew, h₁, h₂⟩ := exists_served_fileRequests
  obtain ⟨db₁, hdb₁⟩ := Option.isSome_iff_exists.mp h₁
  obtain ⟨db₂, hdb₂⟩ := Option.isSome_iff_exists.mp h₂
  obtain ⟨e₁, hp₁, he₁⟩ := acceptOne_eq_some.mp hdb₁
  obtain ⟨e₂, hp₂, he₂⟩ := acceptOne_eq_some.mp hdb₂
  refine ⟨db, db₁, db₂, hserved, hdb₁, hdb₂, ?_, fun hsame => hnew ?_⟩
  · refine (sub_filesize_applyEntry_iff hvalid hp₁ he₁ id).mpr fun hparent => ?_
    exact absurd hparent (by decide)
  · exact (sub_filesize_applyEntry_iff hvalid hp₂ he₂ id).mp hsame (by decide)

/-- In some history a `mkdir` changes the blocks of a file. -/
theorem not_sub_filesize_of_mkdir :
    ¬ ∀ db, Served db → ∀ k, (recordAt db k).valid = true → (recordAt db k).isDirectory = false →
      ∀ (r : Request) (e : Entry) (db' : Store), prepare db r.now r.op = .ok e →
        applyEntry db e = some db' → ¬ r.op.SetsContentOf k →
        (recordAt db' k).sub = (recordAt db k).sub ∧
          (recordAt db' k).filesize = (recordAt db k).filesize := by
  intro h
  obtain ⟨db, hserved, hvalid, hfile, hnew, _, h₂⟩ := exists_served_fileRequests
  obtain ⟨db₂, hdb₂⟩ := Option.isSome_iff_exists.mp h₂
  obtain ⟨e₂, hp₂, he₂⟩ := acceptOne_eq_some.mp hdb₂
  have hsub := (h db hserved (.set "/f") hvalid hfile _ e₂ db₂ hp₂ he₂ id).1
  obtain ⟨_, _, _, rfl⟩ := prepare_mkdir_eq_ok.mp hp₂
  rw [sub_applyEntry_ne he₂ (by decide), if_pos (by decide)] at hsub
  exact hnew (addName_eq_self.mp hsub)

end Spkdfs
