import Spkdfs.Metadata.Tree

/-!
# Uploads

`SDK::put` of `client/sdk.cpp` uploads a file in two phases.  A `put` request
announces the path and its storage type, then every block is encoded with that
type and stored on the datanodes, and a `put_ok` request reports the strings
that `encode_one` has answered.

The namenode replaces the storage type of the record in the first phase, and the
list of the record in the second.  So between the two phases, and for ever when
the second one never comes, a record can have a new type and an old list.

`World` keeps the uploads that are under way, and for every string that
`encode_one` has ever answered the type that it was encoded with.  What the
datanodes answer is not modelled: an `encode` event carries the answer.
-/

namespace Spkdfs

open RocksDB Hierarchy

/-- A call of `SDK::put` behind the reply to its `put` request. -/
structure Upload where
  path : String
  storageType : StorageType
  filesize : UInt64
  /-- `_lock_remote` has returned. -/
  locked : Bool
  /-- The strings of the blocks that are encoded so far. -/
  sub : List String
  deriving DecidableEq

/-- The namenode and the uploads. -/
structure World where
  db : Store
  uploads : List Upload
  /-- The answers of `encode_one`, with the storage type of the call. -/
  encoded : List (StorageType × String)

/-- The next thing that `SDK::put` does in one of its calls. -/
inductive PutEvent
  | put (path storageType : String) (filesize now : UInt64)
  | lockRemote (i : ℕ) (now : UInt64)
  | encodeOne (i : ℕ) (res : String)
  | putOk (i : ℕ) (now : UInt64)
  deriving DecidableEq

namespace World

def init : World := ⟨KeyedMap.empty, [], []⟩

/-- One step.  A call whose request is refused ends with an exception. -/
def step (w : World) : PutEvent → Option World
  | .put path storageType filesize now =>
    match StorageType.fromString storageType with
    | .error _ => some w
    | .ok type =>
      match prepare w.db now (.put path storageType) with
      | .error _ => some w
      | .ok e =>
        (applyEntry w.db e).map fun db =>
          { w with db := db, uploads := w.uploads ++ [⟨path, type, filesize, false, []⟩] }
  | .lockRemote i now =>
    match w.uploads[i]? with
    | none => none
    | some u =>
      match prepare w.db now (.updateLock u.path) with
      | .error _ => some { w with uploads := w.uploads.eraseIdx i }
      | .ok e =>
        (applyEntry w.db e).map fun db =>
          { w with db := db, uploads := w.uploads.set i { u with locked := true } }
  | .encodeOne i res =>
    match w.uploads[i]? with
    | none => none
    | some u =>
      if u.locked then
        some { w with uploads := w.uploads.set i { u with sub := u.sub ++ [res] },
                      encoded := (u.storageType, res) :: w.encoded }
      else none
  | .putOk i now =>
    match w.uploads[i]? with
    | none => none
    | some u =>
      if u.locked then
        match prepare w.db now (.putOk u.path u.filesize u.sub) with
        | .error _ => some { w with uploads := w.uploads.eraseIdx i }
        | .ok e =>
          (applyEntry w.db e).map fun db => { w with db := db, uploads := w.uploads.eraseIdx i }
      else none

/-- Every entry of the list of a valid file was encoded with the storage type of
the file. -/
def Coherent (w : World) : Prop :=
  ∀ k, (recordAt w.db k).valid = true → (recordAt w.db k).isDirectory = false →
    ∀ x ∈ (recordAt w.db k).sub, ∃ t, (recordAt w.db k).storageType = some t ∧ (t, x) ∈ w.encoded

/-- An admitted `put` finds a record without blocks, or with the storage type that
it asks for.  An admitted `put_ok` brings no block, or it finds the storage type
of its own upload; and it adds no name to the list of a file. -/
def TypesKept (w : World) : PutEvent → Prop
  | .put path storageType _ now =>
    ∀ type e, StorageType.fromString storageType = .ok type →
      prepare w.db now (.put path storageType) = .ok e →
      (recordAt w.db (.set path)).sub = [] ∨ (recordAt w.db (.set path)).storageType = some type
  | .putOk i now =>
    ∀ u e, w.uploads[i]? = some u → prepare w.db now (.putOk u.path u.filesize u.sub) = .ok e →
      (u.sub = [] ∨ (recordAt w.db (.set u.path)).storageType = some u.storageType) ∧
        (kindAt w.db (FullPath.set u.path).parentPath = .file →
          (FullPath.set u.path).filename ∈ (recordAt w.db (FullPath.set u.path).parentPath).sub)
  | .lockRemote _ _ | .encodeOne _ _ => True

/-- The steps of an upload.  A step that is refused drops the upload at most. -/
theorem step_cases {w w' : World} {ev : PutEvent} (h : w.step ev = some w') :
    (w'.db = w.db ∧ w'.encoded = w.encoded ∧ ∀ u ∈ w'.uploads, u ∈ w.uploads) ∨
    (∃ path storageType filesize now type e db, ev = .put path storageType filesize now ∧
      StorageType.fromString storageType = .ok type ∧
      prepare w.db now (.put path storageType) = .ok e ∧ applyEntry w.db e = some db ∧
      w' = { w with db := db, uploads := w.uploads ++ [⟨path, type, filesize, false, []⟩] }) ∨
    (∃ i now u e db, ev = .lockRemote i now ∧ w.uploads[i]? = some u ∧
      prepare w.db now (.updateLock u.path) = .ok e ∧ applyEntry w.db e = some db ∧
      w' = { w with db := db, uploads := w.uploads.set i { u with locked := true } }) ∨
    (∃ i res u, ev = .encodeOne i res ∧ w.uploads[i]? = some u ∧
      w' = { w with uploads := w.uploads.set i { u with sub := u.sub ++ [res] },
                    encoded := (u.storageType, res) :: w.encoded }) ∨
    ∃ i now u e db, ev = .putOk i now ∧ w.uploads[i]? = some u ∧
      prepare w.db now (.putOk u.path u.filesize u.sub) = .ok e ∧ applyEntry w.db e = some db ∧
      w' = { w with db := db, uploads := w.uploads.eraseIdx i } := by
  have hdrop : ∀ i, ∀ u ∈ w.uploads.eraseIdx i, u ∈ w.uploads :=
    fun i u hu => List.mem_of_mem_eraseIdx hu
  cases ev with
  | put path storageType filesize now =>
    simp only [step] at h
    split at h
    · obtain rfl := Option.some.inj h
      exact Or.inl ⟨rfl, rfl, fun _ hu => hu⟩
    · rename_i type htype
      split at h
      · obtain rfl := Option.some.inj h
        exact Or.inl ⟨rfl, rfl, fun _ hu => hu⟩
      · rename_i e hp
        obtain ⟨db, hdb, rfl⟩ := Option.map_eq_some_iff.mp h
        exact Or.inr (Or.inl
          ⟨path, storageType, filesize, now, type, e, db, rfl, htype, hp, hdb, rfl⟩)
  | lockRemote i now =>
    simp only [step] at h
    split at h
    · cases h
    · rename_i u hu
      split at h
      · obtain rfl := Option.some.inj h
        exact Or.inl ⟨rfl, rfl, hdrop i⟩
      · rename_i e hp
        obtain ⟨db, hdb, rfl⟩ := Option.map_eq_some_iff.mp h
        exact Or.inr (Or.inr (Or.inl ⟨i, now, u, e, db, rfl, hu, hp, hdb, rfl⟩))
  | encodeOne i res =>
    simp only [step] at h
    split at h
    · cases h
    · rename_i u hu
      split at h
      · exact Or.inr (Or.inr (Or.inr (Or.inl ⟨i, res, u, rfl, hu, (Option.some.inj h).symm⟩)))
      · cases h
  | putOk i now =>
    simp only [step] at h
    split at h
    · cases h
    · rename_i u hu
      split at h
      · split at h
        · obtain rfl := Option.some.inj h
          exact Or.inl ⟨rfl, rfl, hdrop i⟩
        · rename_i e hp
          obtain ⟨db, hdb, rfl⟩ := Option.map_eq_some_iff.mp h
          exact Or.inr (Or.inr (Or.inr (Or.inr ⟨i, now, u, e, db, rfl, hu, hp, hdb, rfl⟩)))
      · cases h

/-- Besides coherence: a stored record is valid, since nothing is removed here, and
the strings of an upload were encoded with its type. -/
structure Invariant (w : World) : Prop where
  coherent : w.Coherent
  stored_valid : ∀ k, Stored w.db k → (recordAt w.db k).valid = true
  sub_encoded : ∀ u ∈ w.uploads, ∀ x ∈ u.sub, (u.storageType, x) ∈ w.encoded

theorem invariant_init : init.Invariant := by
  have hempty : ∀ k, ¬ Stored init.db k := fun k hk => hk (KeyedMap.get_empty k)
  refine ⟨fun k _ _ x hx => ?_, fun k hk => absurd hk (hempty k), by simp [init]⟩
  rw [recordAt_of_not_stored (hempty k)] at hx
  split at hx <;> simp [Inode.getDefaultDir, Inode.new] at hx

theorem Invariant.root_valid {w : World} (hs : w.Invariant) :
    (recordAt w.db .root).valid = true := by
  by_cases h : Stored w.db .root
  · exact hs.stored_valid _ h
  · rw [recordAt_of_not_stored h, if_pos rfl]
    rfl

/-- A record with a list is stored, so it is valid. -/
theorem Invariant.valid_of_mem {w : World} (hs : w.Invariant) {k : FullPath} {x : String}
    (hx : x ∈ (recordAt w.db k).sub) : (recordAt w.db k).valid = true := by
  by_cases h : Stored w.db k
  · exact hs.stored_valid k h
  · rw [recordAt_of_not_stored h] at hx
    split at hx <;> simp [Inode.getDefaultDir, Inode.new] at hx

theorem coherent_put {w : World} (hs : w.Invariant) {path storageType : String} {now : UInt64}
    {type : StorageType} {e : Entry} {db : Store}
    (htype : StorageType.fromString storageType = .ok type)
    (hp : prepare w.db now (.put path storageType) = .ok e) (h : applyEntry w.db e = some db)
    (hok : (recordAt w.db (.set path)).sub = [] ∨
      (recordAt w.db (.set path)).storageType = some type) :
    ({ w with db := db } : World).Coherent := by
  obtain ⟨_, hdir, _, t, ht, rfl⟩ := prepare_put_eq_ok.mp hp
  obtain rfl : type = t := by
    rw [htype] at ht
    exact Except.ok.inj ht
  obtain rfl := Option.some.inj h
  intro k hv hf x hx
  simp only [internalPut, recordAt_put, recordAt_fullpath] at hv hf hx ⊢
  by_cases hk : k = (Op.put path storageType).target
  · rw [if_pos hk] at hx ⊢
    refine ⟨type, rfl, ?_⟩
    have hvalid := hs.valid_of_mem hx
    have hfile : (recordAt w.db (Op.put path storageType).target).isDirectory = false := by
      simpa [hvalid] using hdir
    obtain ⟨t', ht', hmem⟩ := hs.coherent _ hvalid hfile x hx
    rcases hok with hnil | hsame
    · rw [show (recordAt w.db (Op.put path storageType).target).sub = [] from hnil] at hx
      cases hx
    · rw [show (recordAt w.db (Op.put path storageType).target).storageType = some type from hsame,
        Option.some.injEq] at ht'
      rwa [ht']
  · rw [if_neg hk] at hv hf hx ⊢
    exact hs.coherent k hv hf x hx

theorem coherent_lockRemote {w : World} (hs : w.Invariant) {path : String} {now : UInt64}
    {e : Entry} {db : Store} (hp : prepare w.db now (.updateLock path) = .ok e)
    (h : applyEntry w.db e = some db) : ({ w with db := db } : World).Coherent := by
  obtain ⟨_, rfl⟩ := prepare_updateLock_eq_ok.mp hp
  obtain rfl := Option.some.inj h
  intro k hv hf x hx
  simp only [internalPut, recordAt_put, Inode.updateDdlLock, recordAt_fullpath] at hv hf hx ⊢
  by_cases hk : k = (Op.updateLock path).target
  · rw [if_pos hk] at hv hf hx ⊢
    exact hs.coherent _ hv hf x hx
  · rw [if_neg hk] at hv hf hx ⊢
    exact hs.coherent k hv hf x hx

theorem coherent_putOk {w : World} (hs : w.Invariant) {u : Upload} (hu : u ∈ w.uploads)
    {now : UInt64} {e : Entry} {db : Store}
    (hp : prepare w.db now (.putOk u.path u.filesize u.sub) = .ok e)
    (h : applyEntry w.db e = some db)
    (htype : u.sub = [] ∨ (recordAt w.db (.set u.path)).storageType = some u.storageType)
    (hparent : kindAt w.db (FullPath.set u.path).parentPath = .file →
      (FullPath.set u.path).filename ∈ (recordAt w.db (FullPath.set u.path).parentPath).sub) :
    ({ w with db := db } : World).Coherent := by
  have htarget : e.path = .set u.path := (prepare_spec hp).2
  obtain ⟨_, _, hfile, rfl⟩ := prepare_putOk_eq_ok.mp hp
  intro k hv hf x hx
  by_cases hk : k = .set u.path
  · subst hk
    have hrec := recordAt_applyEntry_self h
    rw [Entry.written, htarget] at hrec
    rw [hrec] at hx ⊢
    rcases htype with hnil | hsame
    · rw [show x ∈ u.sub ↔ False by simp [hnil]] at hx
      exact hx.elim
    · exact ⟨u.storageType, hsame, hs.sub_encoded u hu x hx⟩
  · have hother := recordAt_applyEntry_other h (htarget ▸ hk)
    have hv' : (recordAt w.db k).valid = true := by
      rw [hother] at hv
      exact hv
    have hf' : (recordAt w.db k).isDirectory = false := by
      rw [hother] at hf
      exact hf
    have hsub : (recordAt db k).sub = (recordAt w.db k).sub := by
      rw [recordAt_applyEntry h, htarget, if_neg hk]
      split
      · rename_i hq
        subst hq
        have hname := hparent (kindAt_eq_file.mpr ⟨hv', hf'⟩)
        rw [Entry.editSub, Inode.filename, hfile, recordAt_fullpath]
        exact if_pos hname
      · rfl
    rw [hsub] at hx
    rw [hother]
    exact hs.coherent k hv' hf' x hx

/-- The entry of a request of an upload stores valid records only. -/
theorem stored_valid_applyEntry {w : World} (hs : w.Invariant) {e : Entry} {db : Store}
    (h : applyEntry w.db e = some db) (hvalid : (e.written w.db).valid = true) (k : FullPath)
    (hk : Stored db k) : (recordAt db k).valid = true := by
  by_cases hpath : k = e.path
  · rw [hpath, recordAt_applyEntry_self h]
    exact hvalid
  · rw [recordAt_applyEntry_other h hpath]
    show (recordAt w.db k).valid = true
    rcases (stored_applyEntry h k).mp hk with hs' | ⟨_, hself⟩ | ⟨hedit, rfl⟩
    · exact hs.stored_valid k hs'
    · exact absurd hself hpath
    · rcases parentFound_of_applyEntry h hedit with hs' | hroot
      · exact hs.stored_valid _ hs'
      · rw [hroot]
        exact hs.root_valid

theorem invariant_step {w w' : World} {ev : PutEvent} (hs : w.Invariant) (hok : w.TypesKept ev)
    (h : w.step ev = some w') : w'.Invariant := by
  rcases step_cases h with ⟨hdb, henc, hup⟩ |
    ⟨path, storageType, filesize, now, type, e, db, rfl, htype, hp, hdb, rfl⟩ |
    ⟨i, now, u, e, db, rfl, hu, hp, hdb, rfl⟩ | ⟨i, res, u, rfl, hu, rfl⟩ |
    ⟨i, now, u, e, db, rfl, hu, hp, hdb, rfl⟩
  · obtain ⟨db, uploads, encoded⟩ := w'
    simp only at hdb henc hup
    subst hdb henc
    exact ⟨hs.coherent, hs.stored_valid, fun u hu => hs.sub_encoded u (hup u hu)⟩
  · refine ⟨coherent_put hs htype hp hdb (hok type e htype hp),
      stored_valid_applyEntry hs hdb ?_, fun u hu x hx => ?_⟩
    · obtain ⟨_, _, _, t, _, rfl⟩ := prepare_put_eq_ok.mp hp
      rfl
    · rcases List.mem_append.mp hu with hu | hu
      · exact hs.sub_encoded u hu x hx
      · rw [List.mem_singleton.mp hu] at hx
        cases hx
  · refine ⟨coherent_lockRemote hs hp hdb, stored_valid_applyEntry hs hdb ?_, fun v hv x hx => ?_⟩
    · obtain ⟨hvalid, rfl⟩ := prepare_updateLock_eq_ok.mp hp
      exact hvalid
    · rcases List.mem_or_eq_of_mem_set hv with hv | rfl
      · exact hs.sub_encoded v hv x hx
      · exact hs.sub_encoded u (List.mem_of_getElem? hu) x hx
  · refine ⟨fun k hv hf x hx => ?_, hs.stored_valid, fun v hv x hx => ?_⟩
    · obtain ⟨t, ht, hmem⟩ := hs.coherent k hv hf x hx
      exact ⟨t, ht, List.mem_cons_of_mem _ hmem⟩
    · rcases List.mem_or_eq_of_mem_set hv with hv | rfl
      · exact List.mem_cons_of_mem _ (hs.sub_encoded v hv x hx)
      · rcases List.mem_append.mp hx with hx | hx
        · exact List.mem_cons_of_mem _ (hs.sub_encoded u (List.mem_of_getElem? hu) x hx)
        · rw [List.mem_singleton.mp hx]
          exact List.mem_cons_self
  · obtain ⟨htype, hparent⟩ := hok u e hu hp
    refine ⟨coherent_putOk hs (List.mem_of_getElem? hu) hp hdb htype hparent,
      stored_valid_applyEntry hs hdb ?_, fun v hv => hs.sub_encoded v (List.mem_of_mem_eraseIdx hv)⟩
    have htarget := (prepare_spec hp).2
    obtain ⟨_, hvalid, _, rfl⟩ := prepare_putOk_eq_ok.mp hp
    rw [Entry.written, htarget]
    exact hvalid

/-- A `put` leaves the list of the record, under the new type. -/
theorem recordAt_put_step {w w' : World} {path storageType : String} {filesize now : UInt64}
    {type : StorageType} {e : Entry} (htype : StorageType.fromString storageType = .ok type)
    (hp : prepare w.db now (.put path storageType) = .ok e)
    (h : w.step (.put path storageType filesize now) = some w') :
    recordAt w'.db (.set path) =
        { recordAt w.db (.set path) with
          isDirectory := false, valid := true, ddlLock := now + lockRefreshInterval,
          storageType := some type } ∧
      w'.encoded = w.encoded := by
  simp only [step, htype, hp] at h
  obtain ⟨db, hdb, rfl⟩ := Option.map_eq_some_iff.mp h
  obtain ⟨_, _, _, t, ht, rfl⟩ := prepare_put_eq_ok.mp hp
  rw [htype] at ht
  obtain rfl := Except.ok.inj ht
  have hrec := recordAt_applyEntry_self hdb
  rw [(prepare_spec hp).2] at hrec
  exact ⟨hrec, rfl⟩

end World

/-- In every run in which the storage type of a file with blocks is never replaced
by another one, and no name is added to the list of a file, the metadata and the
blocks stay coherent.  A `put` over blocks that were never encoded with its type
breaks this at once. -/
theorem coherent_of_typesKept {w : World} (h : Runs.Reach World.step World.TypesKept .init w) :
    w.Coherent ∧
      ∀ path storageType filesize now type e w',
        StorageType.fromString storageType = .ok type →
        prepare w.db now (.put path storageType) = .ok e →
        w.step (.put path storageType filesize now) = some w' →
        (∃ x ∈ (recordAt w.db (.set path)).sub, (type, x) ∉ w.encoded) → ¬ w'.Coherent := by
  have hinv : w.Invariant :=
    h.invariant World.invariant_init fun _ _ _ _ hs hok hstep => World.invariant_step hs hok hstep
  refine ⟨hinv.coherent, ?_⟩
  rintro path storageType filesize now type e w' htype hp hstep ⟨x, hx, hnew⟩ hcoh
  obtain ⟨hrec, henc⟩ := World.recordAt_put_step htype hp hstep
  obtain ⟨t, ht, hmem⟩ := hcoh (.set path) (by rw [hrec]) (by rw [hrec]) x (by rw [hrec]; exact hx)
  rw [hrec, Option.some.injEq] at ht
  rw [henc, ← ht] at hmem
  exact hnew hmem

/-- Two uploads of one path with one storage type, and one that is never
finished. -/
def sameTypeEvents : List PutEvent :=
  [.put "/f" "RE<3,16>" 5 100, .lockRemote 0 100, .encodeOne 0 "x", .putOk 0 101,
    .put "/f" "RE<3,16>" 6 200, .lockRemote 0 200, .encodeOne 0 "y", .putOk 0 201,
    .put "/f" "RE<3,16>" 7 300]

/-- Decides more than `TypesKept` asks for, and looks at no handler. -/
def typesKeptCheck (w : World) : PutEvent → Bool
  | .put path storageType _ _ =>
    match StorageType.fromString storageType with
    | .error _ => true
    | .ok type =>
      (recordAt w.db (.set path)).sub = [] ∨ (recordAt w.db (.set path)).storageType = some type
  | .putOk i _ =>
    match w.uploads[i]? with
    | none => true
    | some u =>
      (recordAt w.db (.set u.path)).storageType = some u.storageType ∧
        kindAt w.db (FullPath.set u.path).parentPath ≠ .file
  | .lockRemote _ _ | .encodeOne _ _ => true

theorem typesKept_of_check {w : World} {ev : PutEvent} (h : typesKeptCheck w ev = true) :
    w.TypesKept ev := by
  cases ev with
  | put path storageType filesize now =>
    intro type e htype _
    simp only [typesKeptCheck, htype] at h
    exact of_decide_eq_true h
  | putOk i now =>
    intro u e hu _
    simp only [typesKeptCheck, hu] at h
    obtain ⟨htype, hparent⟩ := of_decide_eq_true h
    exact ⟨Or.inr htype, fun hfile => absurd hfile hparent⟩
  | lockRemote i now => trivial
  | encodeOne i res => trivial

/-- The history of `sameTypeEvents` ends with one block in the list, and stays
coherent. -/
theorem coherent_sameTypeEvents :
    ∃ w, Runs.Reach World.step World.TypesKept .init w ∧
      (recordAt w.db (.set "/f")).sub = ["y"] ∧ w.Coherent := by
  have hrun : ∃ w, Runs.Reach World.step (fun w ev => typesKeptCheck w ev = true) .init w ∧
      decide ((recordAt w.db (.set "/f")).sub = ["y"]) = true :=
    Runs.exists_reach_of_any_guarded sameTypeEvents (by decide +kernel)
  obtain ⟨w, hcheck, hsub⟩ := hrun
  have hreach : Runs.Reach World.step World.TypesKept .init w :=
    hcheck.mono fun _ _ hok => typesKept_of_check hok
  exact ⟨w, hreach, of_decide_eq_true hsub, (coherent_of_typesKept hreach).1⟩

/-- A finished upload, and a second one with another storage type that is never
finished. -/
def otherTypeEvents : List PutEvent :=
  [.put "/f" "RE<3,16>" 5 100, .lockRemote 0 100, .encodeOne 0 "x", .putOk 0 101,
    .put "/f" "RS<7,5,16>" 5 200]

/-- In some run a file has a block that was encoded with another storage type. -/
theorem not_coherent_otherTypeEvents :
    ¬ ∀ w, Runs.Reachable World.step .init w → w.Coherent := by
  intro h
  have hrun : ∃ w, Runs.Reachable World.step .init w ∧
      ((recordAt w.db (.set "/f")).valid = true ∧
        (recordAt w.db (.set "/f")).isDirectory = false ∧
        "x" ∈ (recordAt w.db (.set "/f")).sub ∧
        (recordAt w.db (.set "/f")).storageType = some (.rs 7 5 16) ∧
        (.rs 7 5 16, "x") ∉ w.encoded : Bool) = true :=
    Runs.exists_reachable_of_any otherTypeEvents (by decide +kernel)
  obtain ⟨w, hreach, htest⟩ := hrun
  obtain ⟨hvalid, hfile, hx, htype, hnew⟩ := of_decide_eq_true htest
  obtain ⟨t, ht, hmem⟩ := h w hreach (.set "/f") hvalid hfile "x" hx
  rw [htype, Option.some.injEq] at ht
  exact hnew (ht ▸ hmem)

end Spkdfs
