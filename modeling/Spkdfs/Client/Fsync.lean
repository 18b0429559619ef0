import Spkdfs.Client.Session

/-!
# Uploading the dirty blocks

`fsync` builds the complete list of the file from the inode that `open` has fetched, and
this inode is never brought up to date.  So the second `fsync` of one `open` puts the
old entries back in place of those that the first one has uploaded.

`fsync_cases` says what an `fsync` does to the record.  `lossless_of_safe` is about the
calls under one `open`: which entries the record has, and when one gets lost.
-/

namespace Spkdfs

open RocksDB Effects

namespace SDK

variable (x : External)

/-! ## One call -/

/-- The entries that the loop of `fsync` uploads, up to the first failure. -/
def encodeDirty (inode : Inode) : Folder → List ℕ → List Uploads → List (ℕ × String)
  | _, [], _ => []
  | _, _ :: _, [] => []
  | folder, i :: res, up :: ups =>
    match folder.readLink i >>= fun block => encodeEntry x inode block up with
    | .error _ => []
    | .ok entry => (i, entry) :: encodeDirty inode (folder.removeLink i) res ups

/-- The entries that a call of `fsync` uploads. -/
def uploaded (st : State) (path : String) (ups : List Uploads) : List (ℕ × String) :=
  match (st.dirty path).getLast?, st.localInodeCache path with
  | some last, some inode =>
    if 2 ^ 31 ≤ last then [] else encodeDirty x inode (st.folder path) (st.dirty path) ups
  | _, _ => []

/-- The namenode records a `put_ok` of the path. -/
def Accepts (db : Store) (path : String) : Prop :=
  path ≠ "" ∧ (recordAt db (.set path)).valid = true ∧
    (recordAt db (.set path)).isDirectory = false ∧ ParentFound db (.set path)

instance (db : Store) (path : String) : Decidable (Accepts db path) :=
  inferInstanceAs (Decidable (_ ∧ _ ∧ _ ∧ _))

/-- A list with some of its entries replaced. -/
def setEntries (sub : List String) (entries : List (ℕ × String)) : List String :=
  entries.foldl (fun sub p => sub.set p.1 p.2) sub

/-- The records and the inodes stay. -/
def SameRecords (st st' : State) : Prop :=
  st'.db = st.db ∧ st'.localInodeCache = st.localInodeCache

instance : IsPreorder State SameRecords where
  refl _ := ⟨rfl, rfl⟩
  trans _ _ _ h₁ h₂ := ⟨h₂.1.trans h₁.1, h₂.2.trans h₁.2⟩

variable {x}

theorem sameRecords_inFolder (path what : String) (f : Folder → Folder) :
    Within SameRecords (inFolder path what f) :=
  within_inFolder (fun _ _ _ => ⟨rfl, rfl⟩) what

theorem within_fsyncLoop (path : String) (inode : Inode) (res : List ℕ) (ups : List Uploads)
    (sub : List String) (size : ℕ) :
    Within SameRecords (fsyncLoop x path inode res ups sub size) := by
  induction res generalizing ups sub size with
  | nil => exact Within.pure _
  | cons i res ih =>
    cases ups with
    | nil => exact Within.throw _
    | cons up ups =>
      intro st
      rw [fsyncLoop, after_get_bind]
      refine ((Within.lift _).bind fun block => (Within.lift _).bind fun entry => ?_) st
      exact (sameRecords_inFolder _ _ _).bind fun _ => ih ups _ _

section Loop

variable {path : String} {inode : Inode} {st : State} {folder : Folder}

/-- One round of the loop. -/
theorem run_fsyncLoop_cons (hfolder : st.tmp path = some folder) (i : ℕ) (up : Uploads)
    (res : List ℕ) (ups : List Uploads) (sub : List String) (size : ℕ) :
    (∃ e, folder.readLink i >>= (fun block => encodeEntry x inode block up) = .error e ∧
      (fsyncLoop x path inode (i :: res) (up :: ups) sub size).run st = .error e st) ∨
    ∃ block entry, folder.readLink i = .ok block ∧ encodeEntry x inode block up = .ok entry ∧
      (fsyncLoop x path inode (i :: res) (up :: ups) sub size).run st =
        (fsyncLoop x path inode res ups (sub.set i entry) block.length).run
          (st.setFolder path (folder.removeLink i)) := by
  rw [fsyncLoop, run_get_bind, State.folder_of_tmp hfolder]
  cases hread : folder.readLink i with
  | error e => exact Or.inl ⟨e, rfl, rfl⟩
  | ok block =>
    rw [run_bind_of_ok (run_lift_eq_ok.mpr ⟨rfl, rfl⟩)]
    cases hentry : encodeEntry x inode block up with
    | error e => exact Or.inl ⟨e, hentry, rfl⟩
    | ok entry =>
      refine Or.inr ⟨block, entry, rfl, hentry, ?_⟩
      rw [run_bind_of_ok (run_lift_eq_ok.mpr ⟨rfl, rfl⟩),
        run_bind_of_ok (run_inFolder hfolder _ _)]

/-- The loop returns if it uploads every block, and then it has set their entries. -/
theorem run_fsyncLoop (hfolder : st.tmp path = some folder) (res : List ℕ) (ups : List Uploads)
    (sub : List String) (size : ℕ) :
    (∃ size' st', (fsyncLoop x path inode res ups sub size).run st =
        .ok (setEntries sub (encodeDirty x inode folder res ups), size') st' ∧
      (encodeDirty x inode folder res ups).map Prod.fst = res) ∨
    ∃ e st', (fsyncLoop x path inode res ups sub size).run st = .error e st' ∧
      (encodeDirty x inode folder res ups).map Prod.fst ≠ res := by
  induction res generalizing ups sub size st folder with
  | nil => exact Or.inl ⟨size, st, rfl, rfl⟩
  | cons i res ih =>
    cases ups with
    | nil => exact Or.inr ⟨.running, st, rfl, by simp [encodeDirty]⟩
    | cons up ups =>
      rcases run_fsyncLoop_cons (x := x) hfolder i up res ups sub size with ⟨e, he, hrun⟩ |
        ⟨block, entry, hread, hentry, hrun⟩
      · refine Or.inr ⟨e, st, hrun, ?_⟩
        rw [encodeDirty, he]
        simp
      · have hdirty : encodeDirty x inode folder (i :: res) (up :: ups) =
            (i, entry) :: encodeDirty x inode (folder.removeLink i) res ups := by
          rw [encodeDirty, bind_eq_ok.mpr ⟨block, hread, hentry⟩]
        rw [hrun, hdirty]
        rcases ih (st.tmp_setFolder path (folder.removeLink i)) ups (sub.set i entry)
          block.length with ⟨size', st', h, hall⟩ | ⟨e, st', h, hall⟩
        · exact Or.inl ⟨size', st', h, by rw [List.map_cons, hall]⟩
        · exact Or.inr ⟨e, st', h, fun heq => hall (List.tail_eq_of_cons_eq heq)⟩

end Loop

theorem request_putOk_eq_ok {db db' : Store} {path : String} {size : UInt64} {sub : List String}
    (h : request db 0 (.putOk path size sub) = .ok db') :
    Accepts db path ∧ recordAt db' (.set path) =
      { (recordAt db (.set path)).unlock with sub := sub, filesize := size } := by
  obtain ⟨e, hp, ha⟩ := request_eq_ok.mp h
  have hrec := recordAt_applyEntry_self ha
  have hpath : e.path = .set path := (prepare_spec hp).2
  obtain ⟨hne, hvalid, hfile, rfl⟩ := prepare_putOk_eq_ok.mp hp
  refine ⟨⟨hne, hvalid, hfile, hpath ▸ parentFound_of_applyEntry ha rfl⟩, ?_⟩
  rw [← hpath, hrec, Entry.written]

theorem exists_request_putOk {db : Store} {path : String} (h : Accepts db path) (size : UInt64)
    (sub : List String) : ∃ db', request db 0 (.putOk path size sub) = .ok db' := by
  obtain ⟨hne, hvalid, hfile, hparent⟩ := h
  have hp : ∃ e, prepare db 0 (.putOk path size sub) = .ok e :=
    ⟨_, prepare_putOk_eq_ok.mpr ⟨hne, hvalid, hfile, rfl⟩⟩
  obtain ⟨e, hp⟩ := hp
  cases ha : applyEntry db e with
  | none =>
    have hlost := (applyEntry_eq_none.mp ha).2
    rw [(prepare_spec hp).2] at hlost
    exact absurd hparent hlost
  | some db' => exact ⟨db', request_eq_ok.mpr ⟨e, hp, ha⟩⟩

/-- The `put_ok` of `fsync` is recorded, or nothing happens. -/
theorem run_sendUnchecked (delivered : Bool) (path : String) (size : UInt64) (sub : List String)
    (st : State) :
    ∃ db, (sendUnchecked delivered (.putOk path size sub)).run st = .ok () { st with db := db } ∧
      ((delivered = true ∧ Accepts st.db path ∧ recordAt db (.set path) =
          { (recordAt st.db (.set path)).unlock with sub := sub, filesize := size }) ∨
        (¬ (delivered = true ∧ Accepts st.db path) ∧ db = st.db)) := by
  show ∃ db, sendUnchecked delivered (.putOk path size sub) st = .ok () { st with db := db } ∧ _
  unfold sendUnchecked
  cases delivered with
  | false => exact ⟨st.db, rfl, Or.inr ⟨by simp, rfl⟩⟩
  | true =>
    cases hreq : request st.db 0 (.putOk path size sub) with
    | error e =>
      refine ⟨st.db, rfl, Or.inr ⟨fun hok => ?_, rfl⟩⟩
      obtain ⟨db, hdb⟩ := exists_request_putOk hok.2 size sub
      rw [hreq] at hdb
      cases hdb
    | ok db => exact ⟨db, rfl, Or.inl ⟨rfl, request_putOk_eq_ok hreq⟩⟩

/-- A path with a dirty block has a directory. -/
theorem tmp_of_getLast?_dirty {st : State} {path : String} {last : ℕ}
    (hlast : (st.dirty path).getLast? = some last) : st.tmp path = some (st.folder path) := by
  cases htmp : st.tmp path with
  | none =>
    rw [State.dirty, State.folder, htmp] at hlast
    cases hlast
  | some folder => rw [State.folder_of_tmp htmp]

/-- What an `fsync` does: it changes no record and has not uploaded every block, or it asks
to record the list of the cached inode with the entries that it has uploaded. -/
theorem fsync_cases (x : External) (path : String) (sync : Sync) (st : State) :
    (SameRecords st (after (fsync x path sync) st) ∧
      ((uploaded x st path sync.ups).map Prod.fst = st.dirty path →
        uploaded x st path sync.ups = [])) ∨
    ∃ last inode size st₁, (st.dirty path).getLast? = some last ∧
      st.localInodeCache path = some inode ∧ SameRecords st st₁ ∧
      (uploaded x st path sync.ups).map Prod.fst = st.dirty path ∧
      (fsync x path sync).run st =
        (sendUnchecked sync.delivered (.putOk path size
          (setEntries (startList inode last) (uploaded x st path sync.ups)))).run st₁ := by
  have hidle : after (fsync x path sync) st = st →
      SameRecords st (after (fsync x path sync) st) := by
    intro h
    rw [h]
    exact refl_of SameRecords st
  cases hlast : (st.dirty path).getLast? with
  | none =>
    have hrun := run_fsync_of_none x hlast sync
    exact Or.inl ⟨hidle (after_of_ok hrun), fun _ => by simp [uploaded, hlast]⟩
  | some last =>
    have hrun := run_fsync_of_some x hlast sync
    by_cases hbig : 2 ^ 31 ≤ last
    · simp only [if_pos hbig] at hrun
      refine Or.inl ⟨hidle (after_of_error hrun), fun _ => ?_⟩
      cases hcache : st.localInodeCache path <;> simp only [uploaded, hlast, hcache, if_pos hbig]
    · simp only [if_neg hbig] at hrun
      cases hcache : st.localInodeCache path with
      | none =>
        have herror := hrun.trans (run_bind_of_error (run_getInode_of_none hcache) _)
        exact Or.inl ⟨hidle (after_of_error herror), fun _ => by simp [uploaded, hlast, hcache]⟩
      | some inode =>
        have hup : uploaded x st path sync.ups =
            encodeDirty x inode (st.folder path) (st.dirty path) sync.ups := by
          simp only [uploaded, hlast, hcache, if_neg hbig]
        have hloop := hrun.trans (run_bind_of_ok (run_getInode_of_some hcache) _)
        have hsame : SameRecords st (after (fsyncLoop x path inode (st.dirty path) sync.ups
            (startList inode last) 0) st) := within_fsyncLoop path inode _ _ _ _ st
        rw [hup]
        rcases run_fsyncLoop (tmp_of_getLast?_dirty hlast) (st.dirty path) sync.ups
          (startList inode last) 0 with
          ⟨size, st₁, h, hall⟩ | ⟨e, st₁, h, hall⟩
        · rw [after_of_ok h] at hsame
          refine Or.inr ⟨last, inode, fsyncSize inode last size, st₁, rfl, rfl, hsame, hall, ?_⟩
          exact hloop.trans (run_bind_of_ok h _)
        · rw [after_of_error h] at hsame
          refine Or.inl ⟨?_, fun hall' => absurd hall' hall⟩
          rw [after_of_error (hloop.trans (run_bind_of_error h _))]
          exact hsame

section Within

variable {R : State → State → Prop} [IsPreorder State R] {path : String}

theorem within_sendUnchecked (hdb : ∀ st db, R st { st with db := db }) (delivered : Bool)
    (op : Op) : Within R (sendUnchecked delivered op) := by
  intro st
  unfold after EStateM.run sendUnchecked
  split <;> rename_i hrun <;> split at hrun <;> cases hrun
  · exact hdb st _
  · exact refl_of R st

/-- `fsync` does what the removals of its names do, and what its request does. -/
theorem within_fsync (hremove : ∀ st folder i, st.tmp path = some folder →
      R st (st.setFolder path (folder.removeLink i)))
    (hdb : ∀ st db, R st { st with db := db }) (sync : Sync) : Within R (fsync x path sync) := by
  have hloop : ∀ inode res ups sub size,
      Within R (fsyncLoop x path inode res ups sub size) := by
    intro inode res
    induction res with
    | nil => exact fun ups sub size => Within.pure _
    | cons i res ih =>
      intro ups sub size
      cases ups with
      | nil => exact Within.throw _
      | cons up ups =>
        intro st
        rw [fsyncLoop, after_get_bind]
        refine ((Within.lift _).bind fun block => (Within.lift _).bind fun entry => ?_) st
        exact (within_inFolder (fun st folder => hremove st folder i) _).bind fun _ => ih _ _ _
  have hblocks : ∀ res last, Within R (syncBlocks x path res last sync) := fun res last =>
    (within_getInode path).bind fun inode =>
      (hloop inode res sync.ups _ _).bind fun p => within_sendUnchecked hdb _ _
  intro st
  cases hlast : (st.dirty path).getLast? with
  | none =>
    rw [after_of_ok (run_fsync_of_none x hlast sync)]
    exact refl_of R st
  | some last =>
    have hrun := run_fsync_of_some x hlast sync
    by_cases hbig : 2 ^ 31 ≤ last
    · rw [if_pos hbig] at hrun
      rw [after_of_error hrun]
      exact refl_of R st
    · rw [if_neg hbig] at hrun
      rw [after, hrun]
      exact hblocks _ last st

end Within

/-! ## The calls under one open -/

/-- The latest entry of each index, after some more were uploaded. -/
def noteEntries (latest : ℕ → Option String) (entries : List (ℕ × String)) : ℕ → Option String :=
  entries.foldl (fun f p => Function.update f p.1 (some p.2)) latest

/-- The list has the latest entry of each index that was uploaded, and at every other index
what it had at the beginning.  Behind the old end it may have empty entries. -/
def Lossless (opened : List String) (latest : ℕ → Option String) (sub : List String) : Prop :=
  ∀ i, match latest i with
    | some entry => sub[i]? = some entry
    | none => sub[i]? = opened[i]? ∨ (opened.length ≤ i ∧ sub[i]? = some "")

theorem setEntries_of_not_mem {entries : List (ℕ × String)} {i : ℕ}
    (h : i ∉ entries.map Prod.fst) (latest : ℕ → Option String) (sub : List String) :
    noteEntries latest entries i = latest i ∧ (setEntries sub entries)[i]? = sub[i]? := by
  induction entries generalizing latest sub with
  | nil => exact ⟨rfl, rfl⟩
  | cons p entries ih =>
    rw [List.map_cons, List.mem_cons, not_or] at h
    obtain ⟨hnote, hset⟩ := ih h.2 (Function.update latest p.1 (some p.2)) (sub.set p.1 p.2)
    refine ⟨hnote.trans (Function.update_of_ne h.1 _ _), hset.trans ?_⟩
    exact List.getElem?_set_ne (Ne.symm h.1)

theorem setEntries_of_mem {entries : List (ℕ × String)} {i : ℕ}
    (h : i ∈ entries.map Prod.fst) (latest : ℕ → Option String) {sub : List String}
    (hi : i < sub.length) :
    ∃ entry, noteEntries latest entries i = some entry ∧
      (setEntries sub entries)[i]? = some entry := by
  induction entries generalizing latest sub with
  | nil => cases h
  | cons p entries ih =>
    by_cases htail : i ∈ entries.map Prod.fst
    · exact ih htail (Function.update latest p.1 (some p.2)) (by rwa [List.length_set])
    · obtain rfl : i = p.1 := (List.mem_cons.mp h).resolve_right htail
      obtain ⟨hnote, hset⟩ := setEntries_of_not_mem htail
        (Function.update latest p.1 (some p.2)) (sub.set p.1 p.2)
      refine ⟨p.2, hnote.trans (Function.update_self ..), hset.trans ?_⟩
      exact List.getElem?_set_self hi

theorem length_startList (inode : Inode) (last : ℕ) : last < (startList inode last).length := by
  unfold startList
  split
  · rw [resizeSub, List.length_append, List.length_take, List.length_replicate]
    omega
  · omega

/-- The list that `fsync` starts from is that of the inode, with empty entries behind its
end. -/
theorem getElem?_startList (inode : Inode) (last i : ℕ) :
    (startList inode last)[i]? = inode.sub[i]? ∨
      (inode.sub.length ≤ i ∧ (startList inode last)[i]? = some "") := by
  unfold startList
  split
  · rename_i hlen
    rw [resizeSub, List.take_of_length_le (by omega), List.getElem?_append]
    split
    · exact Or.inl rfl
    · rename_i hi
      rw [List.getElem?_replicate]
      split
      · exact Or.inr ⟨by omega, rfl⟩
      · left
        exact (List.getElem?_eq_none_iff.mpr (by omega)).symm
  · exact Or.inl rfl

theorem le_of_mem_dirty {folder : Folder} {last i : ℕ}
    (hlast : folder.dirty.getLast? = some last) (hi : i ∈ folder.dirty) : i ≤ last := by
  have hsorted : folder.dirty.Pairwise (· ≤ ·) := List.pairwise_insertionSort _ _
  obtain ⟨front, hfront⟩ := List.getLast?_eq_some_iff.mp hlast
  rw [hfront] at hsorted hi
  rcases List.mem_append.mp hi with h | h
  · exact (List.pairwise_append.mp hsorted).2.2 i h last (List.mem_singleton_self last)
  · exact (List.mem_singleton.mp h).le

/-- A list that `fsync` has built loses nothing if and only if each index that was uploaded
before is uploaded again, or has its entry in the inode. -/
theorem lossless_setEntries_iff {st : State} {path : String} {inode : Inode} {last : ℕ}
    {latest : ℕ → Option String} {entries : List (ℕ × String)}
    (hlast : (st.dirty path).getLast? = some last)
    (hall : entries.map Prod.fst = st.dirty path) :
    Lossless inode.sub (noteEntries latest entries) (setEntries (startList inode last) entries) ↔
      ∀ i entry, latest i = some entry →
        i ∈ st.dirty path ∨ (startList inode last)[i]? = some entry := by
  constructor
  · intro h i entry hentry
    by_cases hi : i ∈ st.dirty path
    · exact Or.inl hi
    · obtain ⟨hnote, hset⟩ := setEntries_of_not_mem (hall ▸ hi) latest (startList inode last)
      have hi' := h i
      rw [hnote, hentry] at hi'
      exact Or.inr (hset.symm.trans hi')
  · intro h i
    by_cases hi : i ∈ st.dirty path
    · have hlt := (le_of_mem_dirty hlast hi).trans_lt (length_startList inode last)
      obtain ⟨entry, hnote, hset⟩ := setEntries_of_mem (hall ▸ hi) latest hlt
      rw [hnote]
      exact hset
    · obtain ⟨hnote, hset⟩ := setEntries_of_not_mem (hall ▸ hi) latest (startList inode last)
      rw [hnote, hset]
      cases hentry : latest i with
      | none => exact getElem?_startList inode last i
      | some entry => exact (h i entry hentry).resolve_left hi

theorem within_readBlocks (net : Net) (inode : Inode) (indexs : Int × Int) :
    Within SameRecords (readBlocks x net inode indexs) := by
  refine within_readLoop (fun i s _ => ?_) _ _ _
  exact (sameRecords_inFolder _ _ _).bind fun _ => (Within.lift _).bind fun block =>
    (sameRecords_inFolder _ _ _).bind fun _ => Within.pure block

theorem within_readData (net : Net) (path : String) (offset size : UInt64) :
    Within SameRecords (readData x net path offset size) := by
  refine (within_getInode path).bind fun inode => ?_
  split
  · exact Within.pure []
  · exact (Within.lift _).bind fun indexs => (within_readBlocks _ _ _).bind fun s => Within.lift _

theorem within_lnPathIndex (path : String) (i : ℕ) : Within SameRecords (lnPathIndex path i) := by
  intro st
  cases h : (st.folder path).write with
  | none =>
    have hrun : (lnPathIndex path i).run st =
        .error (.thrown (.runtime "filesystem error: cannot create hard link")) st := by
      show lnPathIndex path i st = _
      rw [lnPathIndex, h]
    rw [after_of_error hrun]
    exact refl_of SameRecords st
  | some links =>
    have hrun : (lnPathIndex path i).run st =
        .ok () (st.setFolder path ((st.folder path).addLink links i)) := by
      show lnPathIndex path i st = _
      rw [lnPathIndex, h]
    rw [after_of_ok hrun]
    exact ⟨rfl, rfl⟩

theorem within_writeLoop (path : String) (blockSize offset last : UInt64) (indexs : Int × Int)
    (n : ℕ) (index : Int) (rest : Bytes) :
    Within SameRecords (writeLoop path blockSize offset last indexs n index rest) := by
  induction n generalizing index rest with
  | zero => exact Within.pure ()
  | succ n ih =>
    have hround : ∀ (i : ℕ) (block : Folder → Bytes) (rest : Bytes), Within SameRecords (do
        inFolder path "failed to write data to " fun folder => folder.setBlock i (block folder)
        lnPathIndex path i
        writeLoop path blockSize offset last indexs n (index + 1) rest) := fun i block rest =>
      (sameRecords_inFolder _ _ _).bind fun _ => (within_lnPathIndex _ _).bind fun _ =>
        ih (index + 1) rest
    rw [writeLoop]
    simp only
    split
    · exact (Within.throw _).bind fun _ => hround _ _ _
    · exact hround _ _ _

theorem within_writeData (net : Net) (path : String) (offset : UInt64) (s : Bytes) :
    Within SameRecords (writeData x net path offset s) := by
  refine (within_getInode path).bind fun inode => (Within.lift _).bind fun indexs => ?_
  simp only
  split
  · refine (within_readBlocks _ _ _).bind fun _ => ?_
    split
    · exact (within_readBlocks _ _ _).bind fun _ => within_writeLoop _ _ _ _ _ _ _ _
    · exact within_writeLoop _ _ _ _ _ _ _ _
  · split
    · exact (within_readBlocks _ _ _).bind fun _ => within_writeLoop _ _ _ _ _ _ _ _
    · exact within_writeLoop _ _ _ _ _ _ _ _

/-- The calls under one `open`: the state, the list of the record when `open` has returned,
and the latest entry that was uploaded for each index. -/
structure Writer where
  st : State
  opened : List String
  latest : ℕ → Option String

namespace Writer

/-- The list of the record. -/
def sub (w : Writer) (path : String) : List String := (recordAt w.st.db (.set path)).sub

/-- An `open` for writing has just returned. -/
def Start (x : External) (path : String) (w : Writer) : Prop :=
  ∃ st flags clock, flags.write = true ∧ (openFile x path flags clock).run st = .ok () w.st ∧
    w.opened = w.sub path ∧ w.latest = fun _ => none

/-- One call. -/
def step (x : External) (path : String) (w : Writer) (ev : Event) : Option Writer :=
  (SDK.step x path w.st ev).map fun st =>
    ⟨st, w.opened, match ev with
      | .fsync sync | .closeFile sync => noteEntries w.latest (uploaded x w.st path sync.ups)
      | _ => w.latest⟩

/-- The calls under one `open`, while nobody else writes the file. -/
def Alone (path : String) (w : Writer) : Event → Prop
  | .readData _ _ _ | .writeData _ _ _ | .fsync _ | .closeFile _ => True
  | .other st => recordAt st.db (.set path) =
    { recordAt w.st.db (.set path) with ddlLock := (recordAt st.db (.set path)).ddlLock }
  | .openFile _ _ | .putFile _ _ _ _ => False

/-- The `fsync` uploads every dirty block, and the namenode records them. -/
structure Complete (x : External) (path : String) (w : Writer) (sync : Sync) : Prop where
  all : (uploaded x w.st path sync.ups).map Prod.fst = w.st.dirty path
  delivered : sync.delivered = true
  accepts : Accepts w.st.db path

/-- The cached inode has the list of the record when `open` has returned. -/
def Fresh (path : String) (w : Writer) : Prop :=
  ∀ inode, w.st.localInodeCache path = some inode → inode.sub = w.opened

/-- Each index that was uploaded before is dirty again, or has its entry in the cached
inode. -/
def Again (path : String) (w : Writer) : Prop :=
  ∀ inode last, w.st.localInodeCache path = some inode →
    (w.st.dirty path).getLast? = some last → ∀ i entry, w.latest i = some entry →
      i ∈ w.st.dirty path ∨ (startList inode last)[i]? = some entry

/-- When an `fsync` uploads something, it does so completely, and it does not undo an
earlier one. -/
def Safe (x : External) (path : String) (w : Writer) : Event → Prop
  | .fsync sync | .closeFile sync => uploaded x w.st path sync.ups ≠ [] →
    w.Complete x path sync ∧ w.Fresh path ∧ w.Again path
  | _ => True

variable {path : String} {w w' : Writer}

/-- The record after an `fsync`. -/
theorem lossless_fsync_iff {sync : Sync} (hsome : uploaded x w.st path sync.ups ≠ [])
    (hcomplete : w.Complete x path sync) (hfresh : w.Fresh path) :
    Lossless w.opened (noteEntries w.latest (uploaded x w.st path sync.ups))
        (recordAt (after (fsync x path sync) w.st).db (.set path)).sub ↔ w.Again path := by
  rcases fsync_cases x path sync w.st with ⟨_, hidle⟩ |
    ⟨last, inode, size, st₁, hlast, hcache, hsame, hall, hrun⟩
  · exact absurd (hidle hcomplete.all) hsome
  · obtain ⟨db, hsend, hdb⟩ := run_sendUnchecked sync.delivered path size
      (setEntries (startList inode last) (uploaded x w.st path sync.ups)) st₁
    have hrecord : (recordAt (after (fsync x path sync) w.st).db (.set path)).sub =
        setEntries (startList inode last) (uploaded x w.st path sync.ups) := by
      rw [after_of_ok (hrun.trans hsend)]
      rcases hdb with ⟨_, _, hrec⟩ | ⟨hlost, _⟩
      · rw [hrec]
      · exact absurd ⟨hcomplete.delivered, hsame.1 ▸ hcomplete.accepts⟩ hlost
    rw [hrecord, ← hfresh inode hcache, lossless_setEntries_iff hlast hall]
    constructor
    · intro h inode' last' hcache' hlast'
      rw [hcache, Option.some.injEq] at hcache'
      rw [hlast, Option.some.injEq] at hlast'
      exact hcache' ▸ hlast' ▸ h
    · intro h
      exact h inode last hcache hlast

/-- An `fsync` keeps everything, if it is safe. -/
theorem lossless_fsync {sync : Sync} (h : Lossless w.opened w.latest (w.sub path))
    (hsafe : uploaded x w.st path sync.ups ≠ [] →
      w.Complete x path sync ∧ w.Fresh path ∧ w.Again path) :
    Lossless w.opened (noteEntries w.latest (uploaded x w.st path sync.ups))
      (recordAt (after (fsync x path sync) w.st).db (.set path)).sub := by
  by_cases hsome : uploaded x w.st path sync.ups = []
  · have hdb : (after (fsync x path sync) w.st).db = w.st.db := by
      rcases fsync_cases x path sync w.st with ⟨hsame, _⟩ | ⟨last, _, _, _, hlast, _, _, hall, _⟩
      · exact hsame.1
      · rw [hsome, List.map_nil] at hall
        rw [← hall] at hlast
        cases hlast
    rw [hsome, hdb]
    exact h
  · obtain ⟨hcomplete, hfresh, hagain⟩ := hsafe hsome
    exact (lossless_fsync_iff hsome hcomplete hfresh).mpr hagain

theorem db_closeFile (path : String) (sync : Sync) (st : State) :
    (after (closeFile x path sync) st).db = (after (fsync x path sync) st).db := by
  rcases after_bind (fsync x path sync) (fun _ => modify fun st => st.setInode path none) st with
    h | ⟨_, st₁, _, hst₁, h⟩
  · rw [closeFile, h]
  · rw [closeFile, h, hst₁]
    rfl

theorem lossless_step {ev : Event} (hs : Lossless w.opened w.latest (w.sub path))
    (halone : w.Alone path ev) (hsafe : w.Safe x path ev) (h : w.step x path ev = some w') :
    Lossless w'.opened w'.latest (w'.sub path) := by
  obtain ⟨st, hst, rfl⟩ := Option.map_eq_some_iff.mp h
  have hafter := settled_eq_some hst
  cases ev with
  | openFile flags clock => exact halone.elim
  | putFile file storageType clock ups => exact halone.elim
  | fsync sync =>
    rw [← hafter]
    exact lossless_fsync hs hsafe
  | closeFile sync =>
    rw [← hafter]
    show Lossless _ _ (recordAt (after (closeFile x path sync) w.st).db (.set path)).sub
    rw [db_closeFile]
    exact lossless_fsync hs hsafe
  | readData net offset size =>
    have hsame : SameRecords w.st st := by
      rw [← hafter]
      exact ((within_readData net path offset size).bind fun _ => Within.pure ()) w.st
    rw [sub, hsame.1]
    exact hs
  | writeData net offset s =>
    have hsame : SameRecords w.st st := by
      rw [← hafter]
      exact within_writeData net path offset s w.st
    rw [sub, hsame.1]
    exact hs
  | other st' =>
    obtain rfl := Option.some.inj hst
    show Lossless w.opened w.latest (recordAt st'.db (.set path)).sub
    rw [show recordAt st'.db (.set path) = _ from halone]
    exact hs

end Writer

/-- In every run of calls under one `open` in which each `fsync` is safe, no entry is lost.
A complete `fsync` keeps everything if and only if each index that was uploaded before is
dirty again, or has its entry in the inode that `open` has fetched. -/
theorem lossless_of_safe {path : String} {w₀ w : Writer} (hstart : w₀.Start x path)
    (h : Runs.Reach (Writer.step x path) (fun w ev => w.Alone path ev ∧ w.Safe x path ev) w₀ w) :
    Lossless w.opened w.latest (w.sub path) ∧
      ∀ sync w', w.step x path (.fsync sync) = some w' → uploaded x w.st path sync.ups ≠ [] →
        w.Complete x path sync → w.Fresh path →
        (Lossless w'.opened w'.latest (w'.sub path) ↔ w.Again path) := by
  obtain ⟨st, flags, clock, _, _, hopened, hlatest⟩ := hstart
  have hinit : Lossless w₀.opened w₀.latest (w₀.sub path) := by
    intro i
    rw [hlatest, hopened]
    exact Or.inl rfl
  refine ⟨h.invariant (I := fun w => Lossless w.opened w.latest (w.sub path)) hinit
    fun _ _ _ _ hs hok hstep => Writer.lossless_step hs hok.1 hok.2 hstep,
    fun sync w' hstep hsome hcomplete hfresh => ?_⟩
  obtain ⟨st', hst, rfl⟩ := Option.map_eq_some_iff.mp hstep
  have hafter := settled_eq_some hst
  rw [← hafter]
  exact Writer.lossless_fsync_iff hsome hcomplete hfresh

/-- The empty file, when it has just been opened. -/
def openedWriter : Writer := ⟨openedFile, [], fun _ => none⟩

theorem start_openedWriter : openedWriter.Start byteExternal "/f" := by
  refine ⟨emptyFile, ⟨false, true, false⟩, fun _ => 200, rfl, run_openFile_emptyFile, ?_, rfl⟩
  decide +kernel

/-- One byte is written. -/
def writtenWriter : Writer :=
  ⟨after (writeData byteExternal byteNet "/f" 0 [7]) openedFile, [], fun _ => none⟩

/-- The byte is uploaded. -/
def syncedWriter : Writer :=
  ⟨after (fsync byteExternal "/f" ⟨[byteUploads], true⟩) writtenWriter.st, [],
    noteEntries (fun _ => none) [(0, byteEntry [7])]⟩

/-- A second byte is written behind the first one. -/
def rewrittenWriter : Writer :=
  ⟨after (writeData byteExternal byteNet "/f" 1 [8]) syncedWriter.st, [], syncedWriter.latest⟩

/-- The whole block is uploaded again. -/
def resyncedWriter : Writer :=
  ⟨after (fsync byteExternal "/f" ⟨[byteUploads], true⟩) rewrittenWriter.st, [],
    noteEntries syncedWriter.latest [(0, byteEntry [7, 8])]⟩

theorem step_write {w : Writer} {offset : UInt64} {s : Bytes}
    (h : (SDK.step byteExternal "/f" w.st (.writeData byteNet offset s)).isSome = true) :
    w.step byteExternal "/f" (.writeData byteNet offset s) =
      some ⟨after (writeData byteExternal byteNet "/f" offset s) w.st, w.opened, w.latest⟩ :=
  Option.map_eq_some_iff.mpr ⟨_, step_of_isSome h, rfl⟩

theorem step_fsync {w : Writer} {entries : List (ℕ × String)}
    (h : (SDK.step byteExternal "/f" w.st (.fsync ⟨[byteUploads], true⟩)).isSome = true)
    (hup : uploaded byteExternal w.st "/f" [byteUploads] = entries) :
    w.step byteExternal "/f" (.fsync ⟨[byteUploads], true⟩) =
      some ⟨after (fsync byteExternal "/f" ⟨[byteUploads], true⟩) w.st, w.opened,
        noteEntries w.latest entries⟩ := by
  rw [← hup]
  exact Option.map_eq_some_iff.mpr ⟨_, step_of_isSome h, rfl⟩

/-- An `fsync` that uploads all its blocks, and each block of before again. -/
theorem safe_fsync {w : Writer} {entries : List (ℕ × String)}
    (hup : uploaded byteExternal w.st "/f" [byteUploads] = entries)
    (hdirty : w.st.dirty "/f" = entries.map Prod.fst)
    (hcache : (w.st.localInodeCache "/f").map Inode.sub = some w.opened)
    (haccepts : Accepts w.st.db "/f")
    (hagain : ∀ i entry, w.latest i = some entry → i ∈ entries.map Prod.fst) :
    w.Safe byteExternal "/f" (.fsync ⟨[byteUploads], true⟩) := by
  refine fun _ => ⟨⟨?_, rfl, haccepts⟩, fun inode hinode => ?_, fun _ _ _ _ i entry h => ?_⟩
  · rw [hup, hdirty]
  · rw [hinode, Option.map_some, Option.some.injEq] at hcache
    exact hcache
  · rw [hdirty]
    exact Or.inl (hagain i entry h)

/-- The second `fsync` uploads the block of the first one again, and its entry is recorded. -/
theorem lossless_resyncedWriter :
    Runs.Reach (Writer.step byteExternal "/f")
        (fun w ev => w.Alone "/f" ev ∧ w.Safe byteExternal "/f" ev) openedWriter resyncedWriter ∧
      rewrittenWriter.latest 0 = some (byteEntry [7]) ∧
      resyncedWriter.latest 0 = some (byteEntry [7, 8]) ∧
      Lossless resyncedWriter.opened resyncedWriter.latest (resyncedWriter.sub "/f") := by
  have hfirst : uploaded byteExternal writtenWriter.st "/f" [byteUploads] =
        [(0, byteEntry [7])] ∧ writtenWriter.st.dirty "/f" = [0] ∧
      (writtenWriter.st.localInodeCache "/f").map Inode.sub = some [] ∧
      Accepts writtenWriter.st.db "/f" := by decide +kernel
  have hsecond : uploaded byteExternal rewrittenWriter.st "/f" [byteUploads] =
        [(0, byteEntry [7, 8])] ∧ rewrittenWriter.st.dirty "/f" = [0] ∧
      (rewrittenWriter.st.localInodeCache "/f").map Inode.sub = some [] ∧
      Accepts rewrittenWriter.st.db "/f" := by decide +kernel
  have hagain : ∀ i entry, rewrittenWriter.latest i = some entry → i ∈ [0] := by
    intro i entry h
    by_contra hi
    have hupdate : Function.update (fun _ => none) 0 (some (byteEntry [7])) i = some entry := h
    rw [Function.update_of_ne (List.ne_of_not_mem_cons hi)] at hupdate
    cases hupdate
  have hsafe := safe_fsync hfirst.1 hfirst.2.1 hfirst.2.2.1 hfirst.2.2.2 fun _ _ h => by cases h
  have hsafe' := safe_fsync hsecond.1 hsecond.2.1 hsecond.2.2.1 hsecond.2.2.2 hagain
  have hreach : Runs.Reach (Writer.step byteExternal "/f")
      (fun w ev => w.Alone "/f" ev ∧ w.Safe byteExternal "/f" ev) openedWriter resyncedWriter :=
    (((Runs.Reach.refl.tail (e := .writeData byteNet 0 [7]) ⟨trivial, trivial⟩
          (step_write (by decide +kernel))).tail
        (e := .fsync _) ⟨trivial, hsafe⟩ (step_fsync (by decide +kernel) hfirst.1)).tail
      (e := .writeData byteNet 1 [8]) ⟨trivial, trivial⟩ (step_write (by decide +kernel))).tail
      (e := .fsync _) ⟨trivial, hsafe'⟩ (step_fsync (by decide +kernel) hsecond.1)
  exact ⟨hreach, rfl, rfl, (lossless_of_safe start_openedWriter hreach).1⟩

/-- One byte in each of two blocks, and an `fsync` after each of them. -/
def twoSyncs : List Event :=
  [.writeData byteNet 0 [7], .fsync ⟨[byteUploads], true⟩, .writeData byteNet 1048576 [8],
    .fsync ⟨[byteUploads], true⟩]

def aloneCheck : Event → Bool
  | .readData _ _ _ | .writeData _ _ _ | .fsync _ | .closeFile _ => true
  | .openFile _ _ | .putFile _ _ _ _ | .other _ => false

theorem alone_of_check {path : String} {w : Writer} {ev : Event} (h : aloneCheck ev = true) :
    w.Alone path ev := by
  cases ev with
  | readData net offset size => trivial
  | writeData net offset s => trivial
  | fsync sync => trivial
  | closeFile sync => trivial
  | openFile flags clock => cases h
  | putFile file storageType clock ups => cases h
  | other st => cases h

/-- The second `fsync` puts an empty entry in place of the block that the first one has
uploaded. -/
theorem not_lossless_twoSyncs :
    ¬ ∀ (x : External) (path : String) (w₀ w : Writer), w₀.Start x path →
      Runs.Reach (Writer.step x path) (fun w ev => w.Alone path ev) w₀ w →
      Lossless w.opened w.latest (w.sub path) := by
  intro h
  have hrun : ∃ w, Runs.Reach (Writer.step byteExternal "/f") (fun _ ev => aloneCheck ev = true)
      openedWriter w ∧ decide (w.latest 0 = some (byteEntry [7]) ∧
        w.sub "/f" = ["", byteEntry [8]]) = true :=
    Runs.exists_reach_of_any_guarded twoSyncs (by decide +kernel)
  obtain ⟨w, hcheck, htest⟩ := hrun
  obtain ⟨hlatest, hsub⟩ := of_decide_eq_true htest
  have hlossless := h byteExternal "/f" openedWriter w start_openedWriter
    (hcheck.mono fun _ _ hok => alone_of_check hok) 0
  rw [hlatest, hsub] at hlossless
  have hempty : "" = byteEntry [7] := Option.some.inj hlossless
  exact absurd hempty (by decide)

end SDK

end Spkdfs
