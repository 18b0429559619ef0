import Spkdfs.Client.Session
import Spkdfs.Lib.Run
import Spkdfs.Lib.SharedFile

/-!
# The blocks of a datanode

`DatanodeServiceImpl::put` and `get` of `node/datanode.cpp`.  A block is a file of its
own in the data directory, and nothing is ever removed from there.

The calls run at once, and none of them takes a lock.  `put` cuts the file to nothing and
writes the data, in as many pieces as the system likes; `get` asks for the size of the
file first and reads that many bytes then.  So each of them is several steps here, and a
state has the calls that are under way.

* `Holds` is what any order of the steps keeps, when the uploads of a block carry the same
  data: the file is on its way to the data.  When no upload of the block is left, the file
  is the data (`file_of_acked`).
* A `get` whose file is cut behind its back reads the end of the file before it has all of
  its bytes.  This is a `LOG(FATAL)`, and the process ends.  `read_keeps_running` says that
  nothing else can make a `get` end it.
-/

namespace Spkdfs

namespace Datanode

open SharedFile

/-- `DNPutRequest`.  A message has less than 2 GiB. -/
structure DNPutRequest where
  blkid : String
  data : Bytes
  fits : data.length < 2 ^ 31

/-- A call of `put` behind the opening of its file, which has `written` bytes of it. -/
structure PutCall where
  id : ℕ
  request : DNPutRequest
  written : ℕ

/-- A call of `get` behind `fs::file_size`.  It has read `block` so far. -/
structure GetCall where
  id : ℕ
  blkid : String
  filesize : Int
  block : Bytes

/-- An answer, and the request that it belongs to. -/
inductive Reply
  | putOk (id : ℕ) (request : DNPutRequest)
  | putFail (id : ℕ) (failInfo : ErrorMessage)
  | getOk (id : ℕ) (blkid : String) (data : Bytes)
  | getFail (id : ℕ) (failInfo : ErrorMessage)

/-- A datanode: its files by their paths, the calls that are under way, and the answers
that it has sent. -/
structure State where
  running : Bool
  files : String → Option Bytes
  puts : List PutCall
  gets : List GetCall
  replies : List Reply

/-- A datanode with an empty directory. -/
def State.init : State := ⟨true, fun _ => none, [], [], []⟩

inductive Event
  /-- `put` up to `ofstream`, which the system may refuse to open. -/
  | put (id : ℕ) (request : DNPutRequest) (opened : Bool)
  /-- The next `n` bytes of a `put` reach the file. -/
  | write (i n : ℕ)
  /-- `file.close()` and the answer. -/
  | close (i : ℕ)
  /-- The rest of the data cannot be written.  `put` does not look at the state of the
  stream. -/
  | diskFull (i : ℕ)
  /-- `get` up to `fs::file_size`. -/
  | get (id : ℕ) (blkid : String)
  /-- A `get` reads up to `n` bytes more. -/
  | read (i n : ℕ)
  /-- A `get` has all of its bytes. -/
  | answer (i : ℕ)
  /-- The process ends for another reason. -/
  | kill
  | start

variable (dataDir : String)

/-- The path of the file of a block. -/
def filePath (blkid : String) : String := dataDir ++ "/blk_" ++ blkid

/-- The files after a write. -/
def setFile (files : String → Option Bytes) (path : String) (data : Bytes) :
    String → Option Bytes :=
  fun p => if p = path then some data else files p

/-- The end of the process.  The files stay as they are. -/
def State.stop (s : State) : State := { s with running := false, puts := [], gets := [] }

/-- A call is answered with the exception that was caught. -/
def State.fail (s : State) (reply : Reply) : State := { s with replies := reply :: s.replies }

/-- A call of `put` is answered. -/
def State.finishPut (s : State) (i : ℕ) (c : PutCall) : State :=
  { s with puts := s.puts.eraseIdx i, replies := .putOk c.id c.request :: s.replies }

def step (s : State) : Event → Option State
  | .put id request opened =>
    if s.running = false then none
    else if opened then
      some { s with files := setFile s.files (filePath dataDir request.blkid) [],
                    puts := s.puts ++ [⟨id, request, 0⟩] }
    else
      some (s.fail (.putFail id
        ⟨.commonException, "openfile error:" ++ filePath dataDir request.blkid⟩))
  | .write i n =>
    match s.puts[i]? with
    | none => none
    | some c =>
      if 0 < n ∧ c.written + n ≤ c.request.data.length then
        let path := filePath dataDir c.request.blkid
        let content := (s.files path).getD []
        some { s with
          files := setFile s.files path
            (writeAt 0 content c.written ((c.request.data.drop c.written).take n)),
          puts := s.puts.set i { c with written := c.written + n } }
      else none
  | .close i =>
    match s.puts[i]? with
    | none => none
    | some c => if c.written = c.request.data.length then some (s.finishPut i c) else none
  | .diskFull i =>
    match s.puts[i]? with
    | none => none
    | some c => if c.written < c.request.data.length then some (s.finishPut i c) else none
  | .get id blkid =>
    if s.running = false then none
    else
      match s.files (filePath dataDir blkid) with
      | none =>
        some (s.fail (.getFail id ⟨.commonException,
          "filesystem error: cannot get file size: No such file or directory [" ++
            filePath dataDir blkid ++ "]"⟩))
      | some content =>
        if toInt32 content.length < 0 then
          some (s.fail (.getFail id ⟨.commonException, "basic_string::_M_replace_aux"⟩))
        else some { s with gets := s.gets ++ [⟨id, blkid, toInt32 content.length, []⟩] }
  | .read i n =>
    match s.gets[i]? with
    | none => none
    | some g =>
      if 0 < n ∧ (g.block.length : Int) + n ≤ g.filesize then
        match s.files (filePath dataDir g.blkid) with
        | none => some s.stop
        | some content =>
          if content.length ≤ g.block.length then some s.stop
          else
            let block := g.block ++ (content.drop g.block.length).take n
            some { s with gets := s.gets.set i { g with block := block } }
      else none
  | .answer i =>
    match s.gets[i]? with
    | none => none
    | some g =>
      if (g.block.length : Int) = g.filesize then
        some { s with
          gets := s.gets.eraseIdx i,
          replies := .getOk g.id g.blkid g.block :: s.replies }
      else none
  | .kill => if s.running = false then none else some s.stop
  | .start => if s.running then none else some { s with running := true }

variable {dataDir}

theorem filePath_inj {b b' : String} : filePath dataDir b = filePath dataDir b' ↔ b = b' :=
  ⟨fun h => String.append_right_inj _ |>.mp h, congrArg _⟩

/-! ## What a step does to the files -/

variable (dataDir)

/-- A step that leaves the files and the uploads alone.  Behind it, a call of `get` was there
before, or the size of its file was asked for now. -/
structure Quiet (s s' : State) : Prop where
  files : s'.files = s.files
  puts : s'.puts = s.puts
  acks : ∀ id request, .putOk id request ∈ s'.replies → .putOk id request ∈ s.replies
  replies : s.replies ⊆ s'.replies
  gets : ∀ g' ∈ s'.gets, (∃ g ∈ s.gets, g.blkid = g'.blkid ∧ g.filesize = g'.filesize) ∨
    ∃ content, s.files (filePath dataDir g'.blkid) = some content ∧
      g'.filesize = toInt32 content.length
  running : s'.running = false → s.running = false ∧ (s.gets = [] → s'.gets = [])

variable {dataDir}

theorem quiet_fail {s : State} {reply : Reply} (h : ∀ id request, reply ≠ .putOk id request) :
    Quiet dataDir s (s.fail reply) := by
  refine ⟨rfl, rfl, fun id request hr => ?_, List.subset_cons_self _ _,
    fun g hg => Or.inl ⟨g, hg, rfl, rfl⟩, fun hrunning => ⟨hrunning, fun hnil => hnil⟩⟩
  rcases List.mem_cons.mp hr with heq | hr
  · exact absurd heq.symm (h id request)
  · exact hr

theorem quiet_get {s s' : State} {id : ℕ} {blkid : String}
    (h : step dataDir s (.get id blkid) = some s') : Quiet dataDir s s' := by
  simp only [step] at h
  split at h
  · cases h
  · rename_i hrunning
    split at h
    · rw [← Option.some.inj h]
      exact quiet_fail (by simp)
    · rename_i content hf
      split at h
      · rw [← Option.some.inj h]
        exact quiet_fail (by simp)
      · rw [← Option.some.inj h]
        refine ⟨rfl, rfl, fun _ _ hr => hr, List.Subset.refl _, fun g hg => ?_,
          fun hstop => absurd hstop hrunning⟩
        rcases List.mem_append.mp hg with hg | hg
        · exact Or.inl ⟨g, hg, rfl, rfl⟩
        · obtain rfl := List.mem_singleton.mp hg
          refine Or.inr ⟨content, hf, ?_⟩
          simp only

theorem stop_or_quiet_read {s s' : State} {i n : ℕ} (h : step dataDir s (.read i n) = some s') :
    s' = s.stop ∨ Quiet dataDir s s' := by
  simp only [step] at h
  split at h
  · cases h
  · rename_i g hi
    have hmem : g ∈ s.gets := List.mem_of_getElem? hi
    split at h
    · split at h
      · exact Or.inl (Option.some.inj h).symm
      · split at h
        · exact Or.inl (Option.some.inj h).symm
        · obtain rfl := Option.some.inj h
          refine Or.inr ⟨rfl, rfl, fun _ _ hr => hr, List.Subset.refl _, fun g' hg' => ?_,
            fun hstop => ⟨hstop, fun hnil => absurd hmem (hnil ▸ List.not_mem_nil)⟩⟩
          rcases List.mem_or_eq_of_mem_set hg' with hg' | rfl
          · exact Or.inl ⟨g', hg', rfl, rfl⟩
          · exact Or.inl ⟨g, hmem, rfl, rfl⟩
    · cases h

theorem quiet_answer {s s' : State} {i : ℕ} (h : step dataDir s (.answer i) = some s') :
    Quiet dataDir s s' := by
  simp only [step] at h
  split at h
  · cases h
  · split at h
    · obtain rfl := Option.some.inj h
      refine ⟨rfl, rfl, by simp, List.subset_cons_self _ _, fun g hg => ?_,
        fun hstop => ⟨hstop, fun hnil => ?_⟩⟩
      · exact Or.inl ⟨g, List.mem_of_mem_eraseIdx hg, rfl, rfl⟩
      · rw [hnil]
        rfl
    · cases h

/-- The five things that a step can do. -/
theorem step_cases {s s' : State} {ev : Event} (h : step dataDir s ev = some s') :
    Quiet dataDir s s' ∨ (s' = s.stop ∧ (ev = .kill ∨ ∃ i n, ev = .read i n)) ∨
      (∃ id request, ev = .put id request true ∧ s.running = true ∧
        s' = { s with files := setFile s.files (filePath dataDir request.blkid) [],
                      puts := s.puts ++ [⟨id, request, 0⟩] }) ∨
      (∃ i n c, ev = .write i n ∧ s.puts[i]? = some c ∧ 0 < n ∧
        c.written + n ≤ c.request.data.length ∧
        s' = { s with
          files := setFile s.files (filePath dataDir c.request.blkid)
            (writeAt 0 ((s.files (filePath dataDir c.request.blkid)).getD []) c.written
              ((c.request.data.drop c.written).take n)),
          puts := s.puts.set i { c with written := c.written + n } }) ∨
      ∃ i c, s.puts[i]? = some c ∧ s' = s.finishPut i c ∧
        (ev = .close i ∧ c.written = c.request.data.length ∨ ev = .diskFull i) := by
  cases ev with
  | put id request opened =>
    simp only [step] at h
    split at h
    · cases h
    · rename_i hrunning
      split at h
      · rename_i hopened
        subst hopened
        exact Or.inr (Or.inr (Or.inl
          ⟨id, request, rfl, Bool.eq_true_of_not_eq_false hrunning, (Option.some.inj h).symm⟩))
      · rw [← Option.some.inj h]
        exact Or.inl (quiet_fail (by simp))
  | write i n =>
    simp only [step] at h
    split at h
    · cases h
    · rename_i c hc
      split at h
      · rename_i hn
        exact Or.inr (Or.inr (Or.inr (Or.inl
          ⟨i, n, c, rfl, hc, hn.1, hn.2, (Option.some.inj h).symm⟩)))
      · cases h
  | close i =>
    simp only [step] at h
    split at h
    · cases h
    · rename_i c hc
      split at h
      · rename_i hend
        exact Or.inr (Or.inr (Or.inr (Or.inr
          ⟨i, c, hc, (Option.some.inj h).symm, Or.inl ⟨rfl, hend⟩⟩)))
      · cases h
  | diskFull i =>
    simp only [step] at h
    split at h
    · cases h
    · rename_i c hc
      split at h
      · exact Or.inr (Or.inr (Or.inr (Or.inr ⟨i, c, hc, (Option.some.inj h).symm, Or.inr rfl⟩)))
      · cases h
  | get id blkid => exact Or.inl (quiet_get h)
  | read i n =>
    rcases stop_or_quiet_read h with hstop | hquiet
    · exact Or.inr (Or.inl ⟨hstop, Or.inr ⟨i, n, rfl⟩⟩)
    · exact Or.inl hquiet
  | answer i => exact Or.inl (quiet_answer h)
  | kill =>
    simp only [step] at h
    split at h
    · cases h
    · exact Or.inr (Or.inl ⟨(Option.some.inj h).symm, Or.inl rfl⟩)
  | start =>
    simp only [step] at h
    split at h
    · cases h
    · obtain rfl := Option.some.inj h
      exact Or.inl ⟨rfl, rfl, fun _ _ hr => hr, List.Subset.refl _,
        fun g hg => Or.inl ⟨g, hg, rfl, rfl⟩, by simp⟩

theorem setFile_self (files : String → Option Bytes) (path : String) (data : Bytes) :
    setFile files path data path = some data := if_pos rfl

theorem setFile_other {files : String → Option Bytes} {b b' : String} (data : Bytes)
    (h : b ≠ b') :
    setFile files (filePath dataDir b') data (filePath dataDir b) =
      files (filePath dataDir b) :=
  if_neg fun hpath => h (filePath_inj.mp hpath)

/-! ## A block and its uploads -/

/-- An upload of the block is under way. -/
def State.Uploading (s : State) (b : String) : Prop := ∃ c ∈ s.puts, c.request.blkid = b

/-- An upload of the block stands at `o`. -/
def State.Writes (s : State) (b : String) (o : ℕ) : Prop :=
  ∃ c ∈ s.puts, c.request.blkid = b ∧ c.written = o

/-- An upload of the block was answered with success. -/
def State.Acked (s : State) (b : String) : Prop :=
  ∃ id request, .putOk id request ∈ s.replies ∧ request.blkid = b

variable (dataDir)

/-- The step is as good as it should be for the block `b`: uploads under this name carry
`d`, they are written in full, and the process does not end during one. -/
structure Kept (b : String) (d : Bytes) (s : State) (ev : Event) : Prop where
  data : ∀ id request opened, ev = .put id request opened → request.blkid = b → request.data = d
  space : ∀ i c, ev = .diskFull i → s.puts[i]? = some c → c.request.blkid ≠ b
  alive : ∀ s', step dataDir s ev = some s' → s'.running = false → ¬ s.Uploading b

/-- What any order of the steps keeps. -/
structure Holds (b : String) (d : Bytes) (s : State) : Prop where
  data : ∀ c ∈ s.puts, c.request.blkid = b → c.request.data = d
  file : ∀ content, s.files (filePath dataDir b) = some content →
    Covered d content (s.Writes b)
  stored : s.Uploading b ∨ s.Acked b → ∃ content, s.files (filePath dataDir b) = some content
  acked : ∀ id request, .putOk id request ∈ s.replies → request.blkid = b → request.data = d

variable {dataDir}

theorem holds_init (b : String) (d : Bytes) : Holds dataDir b d State.init := by
  refine ⟨fun c hc => ?_, fun content hf => ?_, ?_, fun id request hr => ?_⟩
  · simp [State.init] at hc
  · simp [State.init] at hf
  · rintro (⟨c, hc, _⟩ | ⟨id, request, hr, _⟩)
    · simp [State.init] at hc
    · simp [State.init] at hr
  · simp [State.init] at hr

/-- An upload that moves on leaves the others where they are. -/
theorem Writes.set_other {puts : List PutCall} {i o : ℕ} {c c' : PutCall} {b : String}
    (hc : puts[i]? = some c) (ho : o ≠ c.written)
    (h : ∃ w ∈ puts, w.request.blkid = b ∧ w.written = o) :
    ∃ w ∈ puts.set i c', w.request.blkid = b ∧ w.written = o := by
  obtain ⟨w, hw, hb, hwo⟩ := h
  obtain ⟨j, hj⟩ := List.mem_iff_getElem?.mp hw
  have hne : i ≠ j := by
    intro hij
    rw [← hij, hc] at hj
    exact ho (hwo ▸ congrArg PutCall.written (Option.some.inj hj).symm)
  refine ⟨w, List.mem_iff_getElem?.mpr ⟨j, ?_⟩, hb, hwo⟩
  rw [List.getElem?_set_ne hne, hj]

/-- An upload that ends leaves the others where they are. -/
theorem Writes.erase_other {puts : List PutCall} {i : ℕ} {c w : PutCall}
    (hc : puts[i]? = some c) (hw : w ∈ puts) (hne : w ≠ c) : w ∈ puts.eraseIdx i := by
  obtain ⟨j, hj⟩ := List.mem_iff_getElem?.mp hw
  refine List.mem_eraseIdx_iff_getElem?.mpr ⟨j, ?_, hj⟩
  intro hij
  rw [hij, hc] at hj
  exact hne (Option.some.inj hj).symm

theorem Holds.opened {s : State} {b : String} {d : Bytes} (hs : Holds dataDir b d s) (id : ℕ)
    {request : DNPutRequest} (hdata : request.blkid = b → request.data = d) :
    Holds dataDir b d
      { s with files := setFile s.files (filePath dataDir request.blkid) [],
               puts := s.puts ++ [⟨id, request, 0⟩] } := by
  refine ⟨fun c hc hb => ?_, fun content hf => ?_, fun hup => ?_, hs.acked⟩
  · rcases List.mem_append.mp hc with hc | hc
    · exact hs.data c hc hb
    · obtain rfl := List.mem_singleton.mp hc
      exact hdata hb
  · by_cases hb : b = request.blkid
    · subst hb
      rw [show content = [] from
        (Option.some.inj ((setFile_self _ _ _).symm.trans hf)).symm]
      exact Covered.opened d ⟨_, List.mem_append_right _ (List.mem_singleton_self _), rfl, rfl⟩
    · refine (hs.file content ((setFile_other _ hb).symm.trans hf)).mono fun o _ hw => ?_
      obtain ⟨c, hc, hcb, hco⟩ := hw
      exact ⟨c, List.mem_append_left _ hc, hcb, hco⟩
  · by_cases hb : b = request.blkid
    · subst hb
      exact ⟨_, setFile_self _ _ _⟩
    · have hup' : s.Uploading b ∨ s.Acked b := by
        refine hup.imp_left fun ⟨c, hc, hcb⟩ => ?_
        rcases List.mem_append.mp hc with hc | hc
        · exact ⟨c, hc, hcb⟩
        · obtain rfl := List.mem_singleton.mp hc
          exact absurd hcb.symm hb
      obtain ⟨content, hf⟩ := hs.stored hup'
      exact ⟨content, (setFile_other _ hb).trans hf⟩

theorem Holds.written {s : State} {b : String} {d : Bytes} (hs : Holds dataDir b d s) {i n : ℕ}
    {c : PutCall} (hc : s.puts[i]? = some c) (hlast : c.written + n ≤ c.request.data.length) :
    Holds dataDir b d
      { s with
        files := setFile s.files (filePath dataDir c.request.blkid)
          (writeAt 0 ((s.files (filePath dataDir c.request.blkid)).getD []) c.written
            ((c.request.data.drop c.written).take n)),
        puts := s.puts.set i { c with written := c.written + n } } := by
  have hmem : c ∈ s.puts := List.mem_of_getElem? hc
  have hi : i < s.puts.length := (List.getElem?_eq_some_iff.mp hc).1
  refine ⟨fun w hw hb => ?_, fun content hf => ?_, fun hup => ?_, hs.acked⟩
  · rcases List.mem_or_eq_of_mem_set hw with hw | rfl
    · exact hs.data w hw hb
    · exact hs.data c hmem hb
  · by_cases hb : b = c.request.blkid
    · subst hb
      obtain rfl := hs.data c hmem rfl
      obtain ⟨old, hold⟩ := hs.stored (Or.inl ⟨c, hmem, rfl⟩)
      rw [hold] at hf
      rw [show content = _ from (Option.some.inj ((setFile_self _ _ _).symm.trans hf)).symm]
      refine (hs.file old hold).write hlast ?_ fun o ho hw => Writes.set_other hc ho hw
      exact ⟨_, List.mem_set hi _, rfl, rfl⟩
    · refine (hs.file content ((setFile_other _ hb).symm.trans hf)).mono fun o _ hw => ?_
      obtain ⟨w, hw, hwb, hwo⟩ := hw
      obtain ⟨j, hj⟩ := List.mem_iff_getElem?.mp hw
      refine ⟨w, List.mem_iff_getElem?.mpr ⟨j, ?_⟩, hwb, hwo⟩
      rw [List.getElem?_set_ne, hj]
      intro hij
      rw [← hij, hc] at hj
      exact hb (hwb ▸ congrArg (fun c => c.request.blkid) (Option.some.inj hj).symm)
  · by_cases hb : b = c.request.blkid
    · subst hb
      exact ⟨_, setFile_self _ _ _⟩
    · have hup' : s.Uploading b ∨ s.Acked b := by
        refine hup.imp_left fun ⟨w, hw, hwb⟩ => ?_
        rcases List.mem_or_eq_of_mem_set hw with hw | rfl
        · exact ⟨w, hw, hwb⟩
        · exact absurd hwb.symm hb
      obtain ⟨content, hf⟩ := hs.stored hup'
      exact ⟨content, (setFile_other _ hb).trans hf⟩

theorem Holds.finished {s : State} {b : String} {d : Bytes} (hs : Holds dataDir b d s) {i : ℕ}
    {c : PutCall} (hc : s.puts[i]? = some c)
    (hend : c.request.blkid = b → c.written = c.request.data.length) :
    Holds dataDir b d (s.finishPut i c) := by
  have hmem : c ∈ s.puts := List.mem_of_getElem? hc
  refine ⟨fun w hw => hs.data w (List.mem_of_mem_eraseIdx hw), fun content hf => ?_,
    fun hup => ?_, fun id request hr hb => ?_⟩
  · refine (hs.file content hf).mono fun o ho hw => ?_
    obtain ⟨w, hw, hwb, hwo⟩ := hw
    refine ⟨w, Writes.erase_other hc hw ?_, hwb, hwo⟩
    rintro rfl
    have hlen := hend hwb
    rw [hs.data w hmem hwb] at hlen
    omega
  · rcases hup with ⟨w, hw, hwb⟩ | ⟨id, request, hr, hb⟩
    · exact hs.stored (Or.inl ⟨w, List.mem_of_mem_eraseIdx hw, hwb⟩)
    · rcases List.mem_cons.mp hr with heq | hr
      · obtain ⟨_, rfl⟩ := Reply.putOk.inj heq
        exact hs.stored (Or.inl ⟨c, hmem, hb⟩)
      · exact hs.stored (Or.inr ⟨id, request, hr, hb⟩)
  · rcases List.mem_cons.mp hr with heq | hr
    · obtain ⟨_, rfl⟩ := Reply.putOk.inj heq
      exact hs.data c hmem hb
    · exact hs.acked id request hr hb

/-- One step. -/
theorem holds_step {s s' : State} {ev : Event} {b : String} {d : Bytes}
    (hs : Holds dataDir b d s) (hok : Kept dataDir b d s ev) (h : step dataDir s ev = some s') :
    Holds dataDir b d s' := by
  rcases step_cases h with hquiet | ⟨hstop, -⟩ | ⟨id, request, rfl, -, rfl⟩ |
    ⟨i, n, c, rfl, hc, _, hlast, rfl⟩ | ⟨i, c, hc, rfl, hev⟩
  · refine ⟨fun c hc => hs.data c (hquiet.puts ▸ hc), fun content hf => ?_, fun hup => ?_,
      fun id request hr => hs.acked id request (hquiet.acks _ _ hr)⟩
    · rw [hquiet.files] at hf
      refine (hs.file content hf).mono fun o _ hw => ?_
      unfold State.Writes
      rw [hquiet.puts]
      exact hw
    · rw [hquiet.files]
      refine hs.stored (hup.imp (fun ⟨c, hc, hb⟩ => ⟨c, hquiet.puts ▸ hc, hb⟩) ?_)
      exact fun ⟨id, request, hr, hb⟩ => ⟨id, request, hquiet.acks _ _ hr, hb⟩
  · have hnone := hok.alive s' h (hstop ▸ rfl)
    subst hstop
    refine ⟨fun c hc => ?_, fun content hf => ?_, fun hup => ?_, hs.acked⟩
    · simp [State.stop] at hc
    · refine (hs.file content hf).mono fun o _ hw => ?_
      obtain ⟨c, hc, hcb, _⟩ := hw
      exact absurd ⟨c, hc, hcb⟩ hnone
    · refine hs.stored (hup.imp_left fun ⟨c, hc, _⟩ => ?_)
      simp [State.stop] at hc
  · exact hs.opened id (hok.data id request true rfl)
  · exact hs.written hc hlast
  · refine hs.finished hc fun hb => ?_
    rcases hev with ⟨_, hend⟩ | hfull
    · exact hend
    · exact absurd hb (hok.space i c hfull hc)

/-! ## The requests that a datanode knows -/

/-- The upload is under way, or it was answered with success. -/
def State.Knows (s : State) (id : ℕ) (request : DNPutRequest) : Prop :=
  (∃ c ∈ s.puts, c.id = id ∧ c.request = request) ∨ .putOk id request ∈ s.replies

/-- A datanode knows no upload but those it was asked for. -/
theorem knows_of_step {s s' : State} {ev : Event} {id : ℕ} {request : DNPutRequest}
    (h : step dataDir s ev = some s') (hknows : s'.Knows id request) :
    s.Knows id request ∨ ev = .put id request true := by
  rcases step_cases h with hquiet | ⟨rfl, -⟩ | ⟨id', request', rfl, -, rfl⟩ |
    ⟨i, n, c, -, hc, -, -, rfl⟩ | ⟨i, c, hc, rfl, -⟩
  · refine Or.inl (hknows.imp (fun ⟨c, hc, heq⟩ => ⟨c, hquiet.puts ▸ hc, heq⟩) ?_)
    exact hquiet.acks id request
  · refine Or.inl (hknows.imp_left fun ⟨c, hc, _⟩ => ?_)
    simp [State.stop] at hc
  · rcases hknows with ⟨c, hc, hid, hr⟩ | hr
    · rcases List.mem_append.mp hc with hc | hc
      · exact Or.inl (Or.inl ⟨c, hc, hid, hr⟩)
      · obtain rfl := List.mem_singleton.mp hc
        exact Or.inr (by rw [← hid, ← hr])
    · exact Or.inl (Or.inr hr)
  · rcases hknows with ⟨c', hc', hid, hr⟩ | hr
    · rcases List.mem_or_eq_of_mem_set hc' with hc' | rfl
      · exact Or.inl (Or.inl ⟨c', hc', hid, hr⟩)
      · exact Or.inl (Or.inl ⟨c, List.mem_of_getElem? hc, hid, hr⟩)
    · exact Or.inl (Or.inr hr)
  · rcases hknows with ⟨c', hc', hid, hr⟩ | hr
    · exact Or.inl (Or.inl ⟨c', List.mem_of_mem_eraseIdx hc', hid, hr⟩)
    · rcases List.mem_cons.mp hr with heq | hr
      · obtain ⟨rfl, rfl⟩ := Reply.putOk.inj heq
        exact Or.inl (Or.inl ⟨c, List.mem_of_getElem? hc, rfl, rfl⟩)
      · exact Or.inl (Or.inr hr)

/-- What was answered stays answered. -/
theorem replies_of_step {s s' : State} {ev : Event} (h : step dataDir s ev = some s') :
    s.replies ⊆ s'.replies := by
  rcases step_cases h with hquiet | ⟨rfl, -⟩ | ⟨id, request, -, -, rfl⟩ |
    ⟨i, n, c, -, -, -, -, rfl⟩ |
    ⟨i, c, -, rfl, -⟩
  · exact hquiet.replies
  · exact List.Subset.refl _
  · exact List.Subset.refl _
  · exact List.Subset.refl _
  · exact List.subset_cons_self _ _

/-- Nothing but a read and a `kill` can end the process. -/
theorem running_of_step {s s' : State} {ev : Event} (h : step dataDir s ev = some s')
    (hrunning : s.running = true) (hkill : ev ≠ .kill := by simp)
    (hread : ∀ i n, ev ≠ .read i n := by simp) : s'.running = true := by
  rcases step_cases h with hquiet | ⟨-, rfl | ⟨i, n, rfl⟩⟩ | ⟨id, request, -, -, rfl⟩ |
    ⟨i, n, c, -, -, -, -, rfl⟩ | ⟨i, c, -, rfl, -⟩
  · cases hs' : s'.running with
    | true => rfl
    | false => exact absurd (hquiet.running hs').1 (by simp [hrunning])
  · exact absurd rfl hkill
  · exact absurd rfl (hread i n)
  · exact hrunning
  · exact hrunning
  · exact hrunning

theorem Holds.file_eq {s : State} {b : String} {d : Bytes} (hs : Holds dataDir b d s)
    (hack : s.Acked b) (hquiet : ¬ s.Uploading b) : s.files (filePath dataDir b) = some d := by
  obtain ⟨content, hf⟩ := hs.stored (Or.inr hack)
  rw [hf, (hs.file content hf).eq fun o _ ⟨c, hc, hb, _⟩ => hquiet ⟨c, hc, hb⟩]

/-- In every run in which the uploads of a block carry the same data and are written in
full: once one of them is answered with success and none is under way, the file of the
block is the data, however the steps of the uploads lay. -/
theorem file_of_acked {s : State} {b : String} {d : Bytes}
    (h : Runs.Reach (step dataDir) (Kept dataDir b d) State.init s) (hack : s.Acked b)
    (hquiet : ¬ s.Uploading b) : s.files (filePath dataDir b) = some d := by
  have hs : Holds dataDir b d s :=
    h.invariant (holds_init b d) fun _ _ _ _ hs hok hstep => holds_step hs hok hstep
  exact hs.file_eq hack hquiet

/-- Decides more than `Kept` asks for. -/
def keptCheck (b : String) (d : Bytes) (s : State) : Event → Bool
  | .put _ request _ => s.running && (request.blkid ≠ b || request.data = d)
  | .write _ _ | .close _ => s.running
  | .kill => s.puts.isEmpty
  | _ => false

theorem kept_of_check {s : State} {b : String} {d : Bytes} {ev : Event}
    (h : keptCheck b d s ev = true) : Kept dataDir b d s ev := by
  refine ⟨?_, ?_, fun s' hstep hstop => ?_⟩
  · rintro id request opened rfl hb
    simp only [keptCheck, hb, ne_eq, not_true_eq_false, decide_false, Bool.false_or,
      Bool.and_eq_true, decide_eq_true_eq] at h
    exact h.2
  · rintro i c rfl
    simp [keptCheck] at h
  · cases ev with
    | kill =>
      rintro ⟨c, hc, -⟩
      rw [List.isEmpty_iff.mp h] at hc
      cases hc
    | put id request opened =>
      have hrunning : s.running = true := (Bool.and_eq_true_iff.mp h).1
      exact absurd hstop (by simp [running_of_step hstep hrunning])
    | write i n => exact absurd hstop (by simp [running_of_step hstep h])
    | close i => exact absurd hstop (by simp [running_of_step hstep h])
    | _ => cases h

/-- The digest of the bytes 1, 2 and 3. -/
def threeDigest : String := "039058C6F2C0CB492C533B0A4D14EF77CC0F78ABCCCED5287D84A1A2011CFB81"

def threeRequest : DNPutRequest := ⟨threeDigest, [1, 2, 3], by decide⟩

/-- The second upload cuts the file while the first one still has a byte to write. -/
def overlappingPuts : List Event :=
  [.put 0 threeRequest true, .write 0 2, .put 1 threeRequest true, .write 0 1, .close 0,
    .write 0 2, .write 0 1, .close 0]

theorem file_of_overlappingPuts :
    ∃ s, Runs.Reach (step "/data") (Kept "/data" threeDigest [1, 2, 3]) State.init s ∧
      s.Acked threeDigest ∧ s.files (filePath "/data" threeDigest) = some [1, 2, 3] := by
  have hrun : ∃ s, Runs.Reach (step "/data")
      (fun s ev => keptCheck threeDigest [1, 2, 3] s ev = true)
      State.init s ∧ (s.puts.isEmpty && s.replies.any fun reply => match reply with
        | .putOk _ request => request.blkid = threeDigest
        | _ => false) = true :=
    Runs.exists_reach_of_any_guarded overlappingPuts (by decide +kernel)
  obtain ⟨s, hcheck, htest⟩ := hrun
  obtain ⟨hempty, hreply⟩ := Bool.and_eq_true_iff.mp htest
  have hreach : Runs.Reach (step "/data") (Kept "/data" threeDigest [1, 2, 3]) State.init s :=
    hcheck.mono fun _ _ hok => kept_of_check hok
  obtain ⟨reply, hmem, hblkid⟩ := List.any_eq_true.mp hreply
  have hack : s.Acked threeDigest := by
    cases reply with
    | putOk id request => exact ⟨id, request, hmem, of_decide_eq_true hblkid⟩
    | putFail _ _ => cases hblkid
    | getOk _ _ _ => cases hblkid
    | getFail _ _ => cases hblkid
  refine ⟨s, hreach, hack, file_of_acked hreach hack ?_⟩
  rintro ⟨c, hc, -⟩
  rw [List.isEmpty_iff.mp hempty] at hc
  cases hc

/-! ## The end of the file -/

theorem toInt32_le (n : ℕ) : toInt32 n ≤ n := by
  rw [toInt32, Int.bmod]
  omega

/-- The calls of `get` behind a step: they were there before, or the size of the file is
what it is now. -/
theorem gets_of_step {s s' : State} {ev : Event} (h : step dataDir s ev = some s') {g' : GetCall}
    (hg : g' ∈ s'.gets) :
    (∃ g ∈ s.gets, g.blkid = g'.blkid ∧ g.filesize = g'.filesize) ∨
      ∃ content, s'.files (filePath dataDir g'.blkid) = some content ∧
        g'.filesize = toInt32 content.length := by
  rcases step_cases h with hquiet | ⟨rfl, -⟩ | ⟨id, request, -, -, rfl⟩ |
    ⟨i, n, c, -, -, -, -, rfl⟩ |
    ⟨i, c, -, rfl, -⟩
  · rw [hquiet.files]
    exact hquiet.gets g' hg
  · simp [State.stop] at hg
  · exact Or.inl ⟨g', hg, rfl, rfl⟩
  · exact Or.inl ⟨g', hg, rfl, rfl⟩
  · exact Or.inl ⟨g', hg, rfl, rfl⟩

/-- Only an opening makes a file shorter. -/
theorem file_grows {s s' : State} {ev : Event} {b : String} {content : Bytes}
    (h : step dataDir s ev = some s')
    (hopen : ∀ id request, ev = .put id request true → request.blkid ≠ b)
    (hf : s.files (filePath dataDir b) = some content) :
    ∃ content', s'.files (filePath dataDir b) = some content' ∧
      content.length ≤ content'.length := by
  rcases step_cases h with hquiet | ⟨rfl, -⟩ | ⟨id, request, rfl, -, rfl⟩ |
    ⟨i, n, c, rfl, hc, _, hlast, rfl⟩ | ⟨i, c, hc, rfl, -⟩
  · exact ⟨content, hquiet.files ▸ hf, Nat.le_refl _⟩
  · exact ⟨content, hf, Nat.le_refl _⟩
  · exact ⟨content, (setFile_other _ (hopen id request rfl).symm).trans hf, Nat.le_refl _⟩
  · by_cases hb : b = c.request.blkid
    · subst hb
      refine ⟨_, setFile_self _ _ _, ?_⟩
      rw [length_writeAt, hf]
      exact Nat.le_max_left _ _
    · exact ⟨content, (setFile_other _ hb).trans hf, Nat.le_refl _⟩
  · exact ⟨content, hf, Nat.le_refl _⟩

/-- No upload of the block opens its file while a `get` of it is under way. -/
def Apart (b : String) (s : State) (ev : Event) : Prop :=
  ∀ id request, ev = .put id request true → request.blkid = b → ∀ g ∈ s.gets, g.blkid ≠ b

/-- The file of a `get` has the size that was asked for. -/
def Fits (dataDir b : String) (s : State) : Prop :=
  ∀ g ∈ s.gets, g.blkid = b → ∃ content, s.files (filePath dataDir b) = some content ∧
    g.filesize ≤ content.length

theorem fits_step {s s' : State} {ev : Event} {b : String} (hs : Fits dataDir b s)
    (hok : Apart b s ev) (h : step dataDir s ev = some s') : Fits dataDir b s' := by
  intro g' hg' hb
  rcases gets_of_step h hg' with ⟨g, hg, hblkid, hsize⟩ | ⟨content, hf, hsize⟩
  · obtain ⟨content, hf, hle⟩ := hs g hg (hblkid.trans hb)
    obtain ⟨content', hf', hle'⟩ := file_grows h
      (fun id request hev hb' => hok id request hev hb' g hg (hblkid.trans hb)) hf
    exact ⟨content', hf', by omega⟩
  · rw [hb] at hf
    exact ⟨content, hf, hsize ▸ toInt32_le _⟩

/-- A datanode that is not running answers no `get`. -/
theorem running_of_mem_gets {s : State} {ok : State → Event → Prop}
    (h : Runs.Reach (step dataDir) ok State.init s) {g : GetCall} (hg : g ∈ s.gets) :
    s.running = true := by
  have hidle : s.running = false → s.gets = [] := by
    refine h.invariant (I := fun s => s.running = false → s.gets = []) (fun _ => rfl)
      fun s ev s' _ hs _ hstep => ?_
    rcases step_cases hstep with hquiet | ⟨rfl, -⟩ | ⟨id, request, -, hrunning, rfl⟩ |
      ⟨i, n, c, -, -, -, -, rfl⟩ | ⟨i, c, -, rfl, -⟩
    · intro hstop
      obtain ⟨hstop, hgets⟩ := hquiet.running hstop
      exact hgets (hs hstop)
    · exact fun _ => rfl
    · exact hs
    · exact hs
    · exact hs
  cases hrunning : s.running with
  | true => rfl
  | false => exact absurd hg (hidle hrunning ▸ List.not_mem_nil)

/-- As long as no upload of the block opens its file, a `get` of it reads on.  A read directly
behind such an opening ends the process. -/
theorem read_keeps_running {s : State} {b : String} {g : GetCall} {i n : ℕ}
    (h : Runs.Reach (step dataDir) (Apart b) State.init s) (hg : s.gets[i]? = some g)
    (hb : g.blkid = b) (hn : 0 < n) (hlast : (g.block.length : Int) + n ≤ g.filesize) :
    (∃ s', step dataDir s (.read i n) = some s' ∧ s'.running = true) ∧
      ∀ id request, request.blkid = b → ∃ s₁ s₂,
        step dataDir s (.put id request true) = some s₁ ∧
        step dataDir s₁ (.read i n) = some s₂ ∧ s₂.running = false := by
  have hmem : g ∈ s.gets := List.mem_of_getElem? hg
  have hrunning := running_of_mem_gets h hmem
  have hfits : Fits dataDir b s := by
    refine h.invariant (fun g hg => ?_) fun _ _ _ _ hs hok hstep => fits_step hs hok hstep
    simp [State.init] at hg
  obtain ⟨content, hf, hle⟩ := hfits g hmem hb
  refine ⟨?_, fun id request hrequest => ?_⟩
  · have hmore : ¬ content.length ≤ g.block.length := by omega
    simp only [step, hg, hb, hf, hn, hlast, hmore, true_and, if_true, if_false]
    exact ⟨_, rfl, hrunning⟩
  · let s₁ : State := { s with files := setFile s.files (filePath dataDir request.blkid) [],
                               puts := s.puts ++ [⟨id, request, 0⟩] }
    refine ⟨s₁, s₁.stop, ?_, ?_, rfl⟩
    · simp only [step, hrunning, Bool.true_eq_false, if_false, if_true, s₁]
    · simp only [step, hg, hb, hrequest, setFile_self, hn, hlast, true_and, if_true,
        List.length_nil, Nat.zero_le, s₁]

/-- Decides `Apart`. -/
def apartCheck (b : String) (s : State) : Event → Bool
  | .put _ request _ => request.blkid ≠ b || s.gets.all fun g => g.blkid ≠ b
  | _ => true

theorem apart_of_check {s : State} {b : String} {ev : Event} (h : apartCheck b s ev = true) :
    Apart b s ev := by
  rintro id request rfl hb g hg
  simp only [apartCheck, hb, ne_eq, not_true_eq_false, decide_false, Bool.false_or,
    List.all_eq_true, decide_eq_true_eq] at h
  exact h g hg

/-- A `get` of three bytes that has read one of them. -/
theorem read_keeps_running_three :
    ∃ s g, Runs.Reach (step "/data") (Apart threeDigest) State.init s ∧ s.gets[0]? = some g ∧
      (∃ s', step "/data" s (.read 0 2) = some s' ∧ s'.running = true) ∧
        ∃ s₁ s₂, step "/data" s (.put 2 threeRequest true) = some s₁ ∧
          step "/data" s₁ (.read 0 2) = some s₂ ∧ s₂.running = false := by
  have hrun : ∃ s, Runs.Reach (step "/data") (fun s ev => apartCheck threeDigest s ev = true)
      State.init s ∧ (match s.gets[0]? with
        | some g => decide (g.blkid = threeDigest ∧ (g.block.length : Int) + 2 ≤ g.filesize)
        | none => false) = true :=
    Runs.exists_reach_of_any_guarded [.put 0 threeRequest true, .write 0 3, .close 0,
      .get 1 threeDigest, .read 0 1] (by decide +kernel)
  obtain ⟨s, hcheck, htest⟩ := hrun
  have hreach : Runs.Reach (step "/data") (Apart threeDigest) State.init s :=
    hcheck.mono fun _ _ hok => apart_of_check hok
  cases hg : s.gets[0]? with
  | none => simp [hg] at htest
  | some g =>
    rw [hg] at htest
    obtain ⟨hb, hlast⟩ := of_decide_eq_true htest
    obtain ⟨hreads, hstops⟩ := read_keeps_running (n := 2) hreach hg hb (by decide) hlast
    exact ⟨s, g, hreach, hg, hreads, hstops 2 threeRequest rfl⟩

end Datanode

end Spkdfs
