import Mathlib.Data.List.TakeWhile

/-!
# POSIX path texts

The part of `std::filesystem::path` that works on the text of a path alone, in
its POSIX reading: the only separator is `/`, there is no root name, and a
sequence of separators counts as one.

* `lexicallyNormal`, `parentPath` and `filename` are the member functions of
  these names.
* `dropTrailingSlash` removes one trailing separator, as a caller does that
  keeps directories without it.

A path text is cut into its names (`names`).  The normal form is computed by a
stack of names (`pushName`), and `Normal` is the shape of every text that
`dropTrailingSlash (lexicallyNormal cs)` can have: empty, `.`, `/`, or a
non-empty stack of names written out.  `normal_simplify` says that the result
has this shape, and `simplify_of_normal` that such a text is left alone, so
the composition is idempotent.

`Normal.join_eq` takes a normal text apart into its parent and its file name,
so a normal text is known from these two.  Of an absolute text, the components
are its names, and the parent is a shorter absolute text.
-/

namespace PathText

/-- The name `.`. -/
def dot : List Char := ['.']

/-- The name `..`. -/
def dotDot : List Char := ['.', '.']

/-- The path has a root directory. -/
def isAbsolute (cs : List Char) : Bool := cs.head? = some '/'

/-- The names of a path, in order. -/
def names (cs : List Char) : List (List Char) :=
  (cs.splitOn '/').filter (fun n => n ≠ [])

/-- The text of a list of names. -/
def render (abs : Bool) (ns : List (List Char)) : List Char :=
  (if abs then ['/'] else []) ++ ['/'].intercalate ns

/-- One name of the path.  The first component is the stack of the names kept
so far, the last one on top.  The second component says that a separator is
left behind the top of the stack: a `.` leaves one, and a `..` that removes a
name leaves the one in front of that name. -/
def pushName (abs : Bool) (acc : List (List Char) × Bool) (n : List Char) :
    List (List Char) × Bool :=
  if n = dot then (acc.1, true)
  else if n = dotDot then
    match acc.1 with
    | [] => if abs then ([], true) else ([dotDot], false)
    | top :: rest => if top = dotDot then (dotDot :: top :: rest, false) else (rest, true)
  else (n :: acc.1, false)

/-- The stack that all names of a path leave. -/
def normalStack (cs : List Char) : List (List Char) × Bool :=
  (names cs).foldl (pushName (isAbsolute cs)) ([], false)

/-- `path::lexically_normal`.  An empty path stays empty, a path without any
name left is the root or `.`, and a trailing separator survives unless it
follows a `..`. -/
def lexicallyNormal (cs : List Char) : List Char :=
  if cs = [] then []
  else
    match normalStack cs with
    | ([], _) => if isAbsolute cs then ['/'] else dot
    | (top :: rest, slash) =>
      let text := render (isAbsolute cs) (top :: rest).reverse
      if (slash || cs.getLast? = some '/') ∧ top ≠ dotDot then text ++ ['/'] else text

/-- Remove one trailing separator, unless it is the whole text. -/
def dropTrailingSlash (cs : List Char) : List Char :=
  if 1 < cs.length ∧ cs.getLast? = some '/' then cs.dropLast else cs

/-- `path::filename`: what follows the last separator. -/
def filename (cs : List Char) : List Char :=
  (cs.reverse.takeWhile (fun c => c ≠ '/')).reverse

/-- The text up to the last separator, reversed, without the separators at
its end. -/
def parentRev (cs : List Char) : List Char :=
  (cs.reverse.dropWhile (fun c => c ≠ '/')).dropWhile (fun c => c = '/')

/-- `path::parent_path`.  A path without a name is its own parent; otherwise
the last name and the separators in front of it go, but not the root
directory. -/
def parentPath (cs : List Char) : List Char :=
  if cs.all (fun c => c = '/') then cs
  else if parentRev cs = [] then (if isAbsolute cs then ['/'] else [])
  else (parentRev cs).reverse

/-- What stands between the separators of an absolute path. -/
def components (cs : List Char) : List (List Char) :=
  if cs = ['/'] then [] else cs.tail.splitOn '/'

/-- A directory and a name in it. -/
def join (d n : List Char) : List Char :=
  if d = [] ∨ d = ['/'] then d ++ n else d ++ '/' :: n

/-! ## Names -/

/-- A text that can stand between two separators. -/
def IsName (n : List Char) : Prop := n ≠ [] ∧ '/' ∉ n

theorem isName_of_mem_names {cs n : List Char} (h : n ∈ names cs) : IsName n := by
  have hne : n ≠ [] := by
    have := (List.mem_filter.mp h).2
    simpa using this
  refine ⟨hne, ?_⟩
  have hmem : n ∈ cs.splitOn '/' := (List.mem_filter.mp h).1
  clear h hne
  induction cs generalizing n with
  | nil =>
    simp only [List.splitOn_nil, List.mem_singleton] at hmem
    simp [hmem]
  | cons c cs ih =>
    rw [List.splitOn_cons_eq_if_modifyHead] at hmem
    split at hmem
    · rcases List.mem_cons.mp hmem with rfl | hmem
      · simp
      · exact ih hmem
    · rename_i hc
      cases hsplit : cs.splitOn '/' with
      | nil => exact absurd hsplit (List.splitOn_ne_nil _ _)
      | cons m ms =>
        rw [hsplit, List.modifyHead_cons] at hmem
        rcases List.mem_cons.mp hmem with rfl | hmem
        · have hm := ih (n := m) (by rw [hsplit]; exact List.mem_cons_self)
          have hc' : c ≠ '/' := by simpa using hc
          simp [hm, hc'.symm]
        · exact ih (by rw [hsplit]; exact List.mem_cons_of_mem _ hmem)

/-- A list of names written out is cut into the same names. -/
theorem names_render (abs : Bool) {ns : List (List Char)} (hne : ns ≠ [])
    (hns : ∀ n ∈ ns, IsName n) : names (render abs ns) = ns := by
  have hsplit : (['/'].intercalate ns).splitOn '/' = ns :=
    List.splitOn_intercalate '/' (fun n hn => (hns n hn).2) hne
  have hfilter : ns.filter (fun n => n ≠ []) = ns := by
    rw [List.filter_eq_self]
    intro n hn
    simpa using (hns n hn).1
  cases abs with
  | false =>
    rw [names, render, if_neg (by simp), List.nil_append, hsplit, hfilter]
  | true =>
    have hcut := List.splitOn_append_cons_self (a := '/') [] (['/'].intercalate ns)
    rw [List.nil_append] at hcut
    rw [names, render, if_pos rfl, List.singleton_append, hcut, hsplit,
      List.splitOn_nil, List.singleton_append, List.filter_cons_of_neg (by simp), hfilter]

/-- The text of some names, with one more name at the end. -/
theorem render_concat (abs : Bool) (ns : List (List Char)) (n : List Char) :
    render abs (ns ++ [n]) = if ns = [] then render abs [] ++ n else render abs ns ++ '/' :: n := by
  induction ns with
  | nil => simp [render, List.intercalate_nil, List.intercalate_singleton]
  | cons m ms ih =>
    rw [if_neg (List.cons_ne_nil m ms)]
    cases ms with
    | nil =>
      simp [render, List.intercalate_cons_cons, List.intercalate_singleton]
    | cons k ks =>
      rw [if_neg (List.cons_ne_nil k ks)] at ih
      simp only [render, List.append_assoc, List.cons_append,
        List.intercalate_cons_cons] at ih ⊢
      rw [List.append_cancel_left_eq] at ih
      rw [ih]

/-! ## The shape of a normal text -/

/-- The stacks that the fold over the names can leave, top first.  No `.` is
on it, and a `..` stands only below other `..`, in a relative path. -/
def NormalStack (abs : Bool) : List (List Char) → Prop
  | [] => True
  | n :: st => IsName n ∧ n ≠ dot ∧ (n = dotDot → abs = false ∧ ∀ m ∈ st, m = dotDot) ∧
      NormalStack abs st

theorem NormalStack.isName {abs : Bool} {st : List (List Char)} (h : NormalStack abs st) :
    ∀ n ∈ st, IsName n := by
  induction st with
  | nil => simp
  | cons m st ih =>
    intro n hn
    rcases List.mem_cons.mp hn with rfl | hn
    · exact h.1
    · exact ih h.2.2.2 n hn

/-- The names below the top, in the order of the path. -/
theorem NormalStack.isName_rest {abs : Bool} {top : List Char} {rest : List (List Char)}
    (h : NormalStack abs (top :: rest)) : ∀ n ∈ rest.reverse, IsName n := by
  intro n hn
  exact h.isName n (List.mem_cons_of_mem _ (List.mem_reverse.mp hn))

theorem isName_dotDot : IsName dotDot := ⟨by decide, by decide⟩

theorem normalStack_pushName {abs : Bool} {acc : List (List Char) × Bool} {n : List Char}
    (hacc : NormalStack abs acc.1) (hn : IsName n) : NormalStack abs (pushName abs acc n).1 := by
  unfold pushName
  split
  · exact hacc
  · rename_i hdot
    split
    · cases hst : acc.1 with
      | nil =>
        cases abs with
        | true => trivial
        | false => exact ⟨isName_dotDot, by decide, fun _ => ⟨rfl, by simp⟩, trivial⟩
      | cons top rest =>
        rw [hst] at hacc
        obtain ⟨h1, h2, h3, h4⟩ := hacc
        by_cases htop : top = dotDot
        · obtain ⟨habs, hrest⟩ := h3 htop
          simp only [htop, if_true]
          refine ⟨isName_dotDot, by decide, fun _ => ⟨habs, ?_⟩, isName_dotDot, by decide,
            fun _ => ⟨habs, hrest⟩, h4⟩
          simpa using hrest
        · simp only [htop, if_false]
          exact h4
    · rename_i hdd
      exact ⟨hn, hdot, fun h => absurd h hdd, hacc⟩

theorem normalStack_foldl {abs : Bool} {ns : List (List Char)} (hns : ∀ n ∈ ns, IsName n)
    {acc : List (List Char) × Bool} (hacc : NormalStack abs acc.1) :
    NormalStack abs (ns.foldl (pushName abs) acc).1 := by
  induction ns generalizing acc with
  | nil => exact hacc
  | cons n ns ih =>
    refine ih (fun m hm => hns m (List.mem_cons_of_mem _ hm)) ?_
    exact normalStack_pushName hacc (hns n List.mem_cons_self)

/-- The names of a normal stack, pushed in order, give the stack back. -/
theorem foldl_pushName_reverse {abs : Bool} {st : List (List Char)} (h : NormalStack abs st) :
    (st.reverse.foldl (pushName abs) ([], false)) = (st, false) := by
  induction st with
  | nil => rfl
  | cons n st ih =>
    obtain ⟨_, hdot, hdd, hst⟩ := h
    rw [List.reverse_cons, List.foldl_append, ih hst, List.foldl_cons, List.foldl_nil, pushName,
      if_neg hdot]
    split
    · rename_i hn
      obtain ⟨rfl, hall⟩ := hdd hn
      cases st with
      | nil => simp [hn]
      | cons top rest =>
        have htop := hall top List.mem_cons_self
        simp [hn, htop]
    · rfl

/-- The texts in normal form, without a trailing separator. -/
inductive Normal : List Char → Prop
  | empty : Normal []
  | dot : Normal dot
  | root : Normal ['/']
  | names {abs : Bool} {top : List Char} {rest : List (List Char)}
      (h : NormalStack abs (top :: rest)) : Normal (render abs (top :: rest).reverse)

theorem render_ne_nil {abs : Bool} {ns : List (List Char)} {n : List Char} (hn : IsName n) :
    render abs (ns ++ [n]) ≠ [] := by
  rw [render_concat]
  split <;> simp [hn.1]

theorem getLast?_render {abs : Bool} {ns : List (List Char)} {n : List Char} (hn : IsName n) :
    (render abs (ns ++ [n])).getLast? = n.getLast? := by
  have hsome : ∃ c, n.getLast? = some c :=
    ⟨n.getLast hn.1, List.getLast?_eq_some_getLast hn.1⟩
  obtain ⟨c, hc⟩ := hsome
  rw [render_concat]
  split
  · simp [List.getLast?_append, hc]
  · rw [List.getLast?_append, List.getLast?_cons, hc]
    rfl

/-- A name does not end in a separator, so neither does a text of names. -/
theorem getLast?_render_ne {abs : Bool} {ns : List (List Char)} {n : List Char} (hn : IsName n) :
    (render abs (ns ++ [n])).getLast? ≠ some '/' := by
  rw [getLast?_render hn]
  intro h
  exact hn.2 (List.mem_of_getLast? h)

theorem isAbsolute_render {abs : Bool} {ns : List (List Char)} {n : List Char}
    (hns : ∀ m ∈ ns, IsName m) (hn : IsName n) : isAbsolute (render abs (ns ++ [n])) = abs := by
  cases abs with
  | true => simp [isAbsolute, render]
  | false =>
    have hhead : ∀ m, IsName m → ∀ cs, (m ++ cs).head? ≠ some '/' := by
      intro m hm cs
      obtain ⟨c, m', rfl⟩ := List.exists_cons_of_ne_nil hm.1
      simp only [List.cons_append, List.head?_cons, ne_eq, Option.some.injEq]
      rintro rfl
      exact hm.2 List.mem_cons_self
    cases ns with
    | nil =>
      have := hhead n hn []
      simpa [isAbsolute, render, List.intercalate_singleton] using this
    | cons m ms =>
      have hm := hns m List.mem_cons_self
      have htail : ∃ cs, render false (m :: (ms ++ [n])) = m ++ cs := by
        cases ms with
        | nil => exact ⟨_, by simp [render, List.intercalate_cons_cons]; rfl⟩
        | cons k ks => exact ⟨_, by simp [render, List.intercalate_cons_cons]; rfl⟩
      obtain ⟨cs, hcs⟩ := htail
      rw [List.cons_append, hcs, isAbsolute]
      simpa using hhead m hm cs

/-! ## The normal form is idempotent -/

theorem dropTrailingSlash_concat {cs : List Char} (h : cs ≠ []) :
    dropTrailingSlash (cs ++ ['/']) = cs := by
  have hlen : 1 < (cs ++ ['/']).length := by
    have := List.length_pos_iff.mpr h
    simp
    omega
  rw [dropTrailingSlash, if_pos ⟨hlen, by simp⟩, List.dropLast_concat]

theorem dropTrailingSlash_of_getLast?_ne {cs : List Char} (h : cs.getLast? ≠ some '/') :
    dropTrailingSlash cs = cs := by
  rw [dropTrailingSlash, if_neg (fun hc => h hc.2)]

/-- The normal form without its trailing separator has a normal shape. -/
theorem normal_simplify (cs : List Char) : Normal (dropTrailingSlash (lexicallyNormal cs)) := by
  by_cases hcs : cs = []
  · rw [lexicallyNormal, if_pos hcs]
    exact .empty
  · rw [lexicallyNormal, if_neg hcs]
    have hstack : NormalStack (isAbsolute cs) (normalStack cs).1 :=
      normalStack_foldl (fun n hn => isName_of_mem_names hn) trivial
    rcases hacc : normalStack cs with ⟨st, slash⟩
    rw [hacc] at hstack
    cases st with
    | nil =>
      cases isAbsolute cs with
      | true => exact .root
      | false => exact .dot
    | cons top rest =>
      have htop : IsName top := hstack.1
      have hnormal := Normal.names hstack
      simp only [List.reverse_cons] at hnormal ⊢
      split
      · rw [dropTrailingSlash_concat (render_ne_nil htop)]
        exact hnormal
      · rw [dropTrailingSlash_of_getLast?_ne (getLast?_render_ne htop)]
        exact hnormal

/-- A normal text is its own normal form. -/
theorem simplify_of_normal {cs : List Char} (h : Normal cs) :
    dropTrailingSlash (lexicallyNormal cs) = cs := by
  cases h with
  | empty => rfl
  | dot => rfl
  | root => rfl
  | @names abs top rest h =>
    have htop : IsName top := h.1
    have hall : ∀ n ∈ (top :: rest).reverse, IsName n := by
      intro n hn
      exact h.isName n (List.mem_reverse.mp hn)
    have habs : isAbsolute (render abs (top :: rest).reverse) = abs := by
      rw [List.reverse_cons]
      exact isAbsolute_render h.isName_rest htop
    have hstack : normalStack (render abs (top :: rest).reverse) = (top :: rest, false) := by
      rw [normalStack, habs, names_render abs (by simp) hall, foldl_pushName_reverse h]
    have hlast : (render abs (top :: rest).reverse).getLast? ≠ some '/' := by
      rw [List.reverse_cons]
      exact getLast?_render_ne htop
    have hne : render abs (top :: rest).reverse ≠ [] := by
      rw [List.reverse_cons]
      exact render_ne_nil htop
    rw [lexicallyNormal, if_neg hne, hstack, habs]
    simp only [Bool.false_or, decide_eq_true_eq, hlast, false_and, if_false]
    exact dropTrailingSlash_of_getLast?_ne hlast

/-- Only the empty text becomes empty. -/
theorem simplify_eq_nil {cs : List Char} (h : dropTrailingSlash (lexicallyNormal cs) = []) :
    cs = [] := by
  by_contra hcs
  have hstack : NormalStack (isAbsolute cs) (normalStack cs).1 :=
    normalStack_foldl (fun n hn => isName_of_mem_names hn) trivial
  rw [lexicallyNormal, if_neg hcs] at h
  rcases hacc : normalStack cs with ⟨st, slash⟩
  rw [hacc] at hstack h
  cases st with
  | nil => cases habs : isAbsolute cs <;> simp [habs, dropTrailingSlash, dot] at h
  | cons top rest =>
    have htop : IsName top := hstack.1
    simp only [List.reverse_cons] at h
    split at h
    · rw [dropTrailingSlash_concat (render_ne_nil htop)] at h
      exact render_ne_nil htop h
    · rw [dropTrailingSlash_of_getLast?_ne (getLast?_render_ne htop)] at h
      exact render_ne_nil htop h

/-- The normal form of a text is absolute exactly when the text is. -/
theorem isAbsolute_simplify (cs : List Char) :
    isAbsolute (dropTrailingSlash (lexicallyNormal cs)) = isAbsolute cs := by
  by_cases hcs : cs = []
  · rw [lexicallyNormal, if_pos hcs, hcs]
    rfl
  · have hstack : NormalStack (isAbsolute cs) (normalStack cs).1 :=
      normalStack_foldl (fun n hn => isName_of_mem_names hn) trivial
    rw [lexicallyNormal, if_neg hcs]
    rcases hacc : normalStack cs with ⟨st, slash⟩
    rw [hacc] at hstack
    cases st with
    | nil => cases isAbsolute cs <;> rfl
    | cons top rest =>
      have htop : IsName top := hstack.1
      simp only [List.reverse_cons]
      split
      · rw [dropTrailingSlash_concat (render_ne_nil htop),
          isAbsolute_render hstack.isName_rest htop]
      · rw [dropTrailingSlash_of_getLast?_ne (getLast?_render_ne htop),
          isAbsolute_render hstack.isName_rest htop]

/-! ## Parent and file name -/

private theorem forall_ne_slash {n : List Char} (hn : '/' ∉ n) :
    ∀ c ∈ n.reverse, decide (c ≠ '/') = true := by
  intro c hc
  have hc' : c ∈ n := List.mem_reverse.mp hc
  simpa using fun h : c = '/' => hn (h ▸ hc')

/-- The last name of a text, where a separator stands in front of it. -/
theorem filename_append {d n : List Char} (hn : '/' ∉ n) : filename (d ++ '/' :: n) = n := by
  have hall := forall_ne_slash hn
  rw [filename, List.reverse_append, List.reverse_cons, List.append_assoc,
    List.takeWhile_append_of_pos hall, List.singleton_append, List.takeWhile_cons_of_neg (by simp),
    List.append_nil, List.reverse_reverse]

theorem filename_of_not_mem {n : List Char} (hn : '/' ∉ n) : filename n = n := by
  have hall := forall_ne_slash hn
  rw [filename, List.takeWhile_eq_self_iff.mpr hall, List.reverse_reverse]

theorem not_mem_filename (cs : List Char) : '/' ∉ filename cs := by
  intro h
  rw [filename, List.mem_reverse] at h
  have := List.mem_takeWhile_imp h
  simp at this

theorem parentRev_append {d n : List Char} (hn : '/' ∉ n) :
    parentRev (d ++ '/' :: n) = d.reverse.dropWhile (fun c => c = '/') := by
  have hall := forall_ne_slash hn
  rw [parentRev, List.reverse_append, List.reverse_cons, List.append_assoc,
    List.dropWhile_append_of_pos hall, List.singleton_append, List.dropWhile_cons_of_neg (by simp),
    List.dropWhile_cons_of_pos (by simp)]

theorem parentRev_of_not_mem {n : List Char} (hn : '/' ∉ n) : parentRev n = [] := by
  have hall := forall_ne_slash hn
  rw [parentRev, List.dropWhile_eq_nil_iff.mpr hall, List.dropWhile_nil]

/-- A text that holds a name is not made of separators alone. -/
theorem all_slash_append {d n : List Char} (hn : IsName n) :
    (d ++ n).all (fun c => c = '/') = false := by
  obtain ⟨c, n', rfl⟩ := List.exists_cons_of_ne_nil hn.1
  have hc : c ≠ '/' := by
    rintro rfl
    exact hn.2 List.mem_cons_self
  simp [hc]

/-- The parent of a single name is the root, or nothing. -/
theorem parentPath_single (abs : Bool) {n : List Char} (hn : IsName n) :
    parentPath (render abs [n]) = render abs [] := by
  cases abs with
  | true =>
    have htext : render true [n] = [] ++ '/' :: n := by
      simp [render, List.intercalate_singleton]
    rw [htext, parentPath, if_neg, parentRev_append hn.2]
    · simp [isAbsolute, render, List.intercalate_nil]
    · rw [List.nil_append, ← List.singleton_append, all_slash_append hn]
      simp
  | false =>
    have htext : render false [n] = n := by
      simp [render, List.intercalate_singleton]
    have hrel : isAbsolute n = false := by
      have hrender : isAbsolute (render false ([] ++ [n])) = false :=
        isAbsolute_render (by simp) hn
      rwa [List.nil_append, htext] at hrender
    have hall : n.all (fun c => c = '/') = false := all_slash_append (d := []) hn
    rw [htext, parentPath, hall, parentRev_of_not_mem hn.2, hrel]
    simp [render, List.intercalate_nil]

/-- The parent of a text with two names or more drops the last one. -/
theorem parentPath_append {d n : List Char} (hn : IsName n) (hd : d ≠ [])
    (hlast : d.getLast? ≠ some '/') : parentPath (d ++ '/' :: n) = d := by
  have hdrop : d.reverse.dropWhile (fun c => c = '/') = d.reverse := by
    cases hrev : d.reverse with
    | nil => rfl
    | cons c cs =>
      have hc : d.getLast? = some c := by
        rw [← List.head?_reverse, hrev]
        rfl
      rw [List.dropWhile_cons_of_neg]
      simp only [decide_eq_true_eq]
      rintro rfl
      exact hlast hc
  have hall : (d ++ '/' :: n).all (fun c => c = '/') = false := by
    have := all_slash_append (d := d ++ ['/']) hn
    rwa [List.append_assoc, List.singleton_append] at this
  rw [parentPath, hall, parentRev_append hn.2, hdrop]
  simp [hd]

/-- Parent and file name of a text of names. -/
theorem parentPath_names {abs : Bool} {top : List Char} {rest : List (List Char)}
    (h : NormalStack abs (top :: rest)) :
    parentPath (render abs (top :: rest).reverse) = render abs rest.reverse ∧
      filename (render abs (top :: rest).reverse) = top := by
  have htop : IsName top := h.1
  rw [List.reverse_cons]
  cases rest with
  | nil =>
    refine ⟨by simpa using parentPath_single abs htop, ?_⟩
    rw [render_concat]
    cases abs with
    | true => exact filename_append (d := []) htop.2
    | false => exact filename_of_not_mem htop.2
  | cons m ms =>
    have hm : IsName m := h.2.2.2.1
    have hne : (m :: ms).reverse ≠ [] := by simp
    rw [render_concat, if_neg hne]
    refine ⟨?_, filename_append htop.2⟩
    rw [List.reverse_cons]
    exact parentPath_append htop (render_ne_nil hm) (getLast?_render_ne hm)

/-- The parent of a normal text is a normal text. -/
theorem Normal.parentPath {cs : List Char} (h : Normal cs) : Normal (PathText.parentPath cs) := by
  cases h with
  | empty => exact .empty
  | dot => exact .empty
  | root => exact .root
  | @names abs top rest h =>
    rw [(parentPath_names h).1]
    cases rest with
    | nil =>
      cases abs with
      | true => exact .root
      | false => exact .empty
    | cons m ms => exact .names h.2.2.2

/-- A normal text is its parent and its file name, joined. -/
theorem Normal.join_eq {cs : List Char} (h : Normal cs) :
    join (PathText.parentPath cs) (filename cs) = cs := by
  cases h with
  | empty => rfl
  | dot => rfl
  | root => rfl
  | @names abs top rest h =>
    obtain ⟨hparent, hname⟩ := parentPath_names h
    rw [hparent, hname, List.reverse_cons, render_concat]
    cases rest with
    | nil => cases abs <;> rfl
    | cons m ms =>
      have hm : IsName m := h.2.2.2.1
      have hne : render abs (m :: ms).reverse ≠ [] := by
        rw [List.reverse_cons]
        exact render_ne_nil hm
      have hroot : render abs (m :: ms).reverse ≠ ['/'] := by
        intro hr
        have hlast : (render abs (ms.reverse ++ [m])).getLast? ≠ some '/' := getLast?_render_ne hm
        rw [← List.reverse_cons, hr] at hlast
        exact hlast rfl
      rw [join, if_neg (by simp only [not_or]; exact ⟨hne, hroot⟩), if_neg (by simp)]

/-- A normal text is known from its parent and its file name. -/
theorem Normal.eq_of_parentPath_of_filename {cs ds : List Char} (hc : Normal cs) (hd : Normal ds)
    (hp : PathText.parentPath cs = PathText.parentPath ds) (hf : filename cs = filename ds) :
    cs = ds := by
  rw [← hc.join_eq, ← hd.join_eq, hp, hf]

/-- Only the root and the empty text are their own parent. -/
theorem Normal.parentPath_eq_self {cs : List Char} (h : Normal cs)
    (hp : PathText.parentPath cs = cs) : cs = [] ∨ cs = ['/'] := by
  by_contra hne
  have hj := h.join_eq
  rw [hp, join, if_neg hne] at hj
  have hlen := congrArg List.length hj
  simp at hlen

/-! ## Absolute texts -/

/-- A normal text that is absolute is the root, or a stack of names behind it. -/
theorem Normal.cases_of_isAbsolute {cs : List Char} (h : Normal cs) (habs : isAbsolute cs = true) :
    cs = ['/'] ∨ ∃ top rest, NormalStack true (top :: rest) ∧
      cs = render true (top :: rest).reverse := by
  cases h with
  | empty => cases habs
  | dot => cases habs
  | root => exact Or.inl rfl
  | @names abs top rest h =>
    rw [List.reverse_cons, isAbsolute_render h.isName_rest h.1] at habs
    subst habs
    exact Or.inr ⟨top, rest, h, rfl⟩

/-- On the stack of an absolute path there is no `..`. -/
theorem NormalStack.ne_dotDot {st : List (List Char)} (h : NormalStack true st) :
    ∀ n ∈ st, n ≠ dot ∧ n ≠ dotDot := by
  induction st with
  | nil => simp
  | cons m st ih =>
    obtain ⟨_, hdot, hdd, hst⟩ := h
    intro n hn
    rcases List.mem_cons.mp hn with rfl | hn
    · exact ⟨hdot, fun hnd => absurd (hdd hnd).1 (by decide)⟩
    · exact ih hst n hn

theorem components_render {ns : List (List Char)} {n : List Char} (hns : ∀ m ∈ ns, IsName m)
    (hn : IsName n) : components (render true (ns ++ [n])) = ns ++ [n] := by
  have hall : ∀ m ∈ ns ++ [n], '/' ∉ m := by
    intro m hm
    rcases List.mem_append.mp hm with hm | hm
    · exact (hns m hm).2
    · rw [List.mem_singleton.mp hm]
      exact hn.2
  have hroot : render true (ns ++ [n]) ≠ ['/'] := by
    intro hr
    have hlast : (render true (ns ++ [n])).getLast? ≠ some '/' := getLast?_render_ne hn
    rw [hr] at hlast
    exact hlast rfl
  rw [components, if_neg hroot]
  show (['/'].intercalate (ns ++ [n])).splitOn '/' = _
  exact List.splitOn_intercalate '/' hall (by simp)

/-- No component of a normal text is empty, `.` or `..`, if the text is absolute. -/
theorem Normal.of_mem_components {cs n : List Char} (h : Normal cs) (habs : isAbsolute cs = true)
    (hn : n ∈ components cs) : n ≠ [] ∧ n ≠ PathText.dot ∧ n ≠ dotDot := by
  rcases h.cases_of_isAbsolute habs with rfl | ⟨top, rest, hst, rfl⟩
  · cases hn
  · rw [List.reverse_cons, components_render hst.isName_rest hst.1, ← List.reverse_cons,
      List.mem_reverse] at hn
    exact ⟨(hst.isName n hn).1, hst.ne_dotDot n hn⟩

theorem Normal.getLast?_ne {cs : List Char} (h : Normal cs) (hroot : cs ≠ ['/']) :
    cs.getLast? ≠ some '/' := by
  cases h with
  | empty => simp
  | dot => decide
  | root => exact absurd rfl hroot
  | @names abs top rest h =>
    rw [List.reverse_cons]
    exact getLast?_render_ne h.1

/-- The last name of an absolute text is not empty, `.` or `..`. -/
theorem Normal.filename_of_isAbsolute {cs : List Char} (h : Normal cs)
    (habs : isAbsolute cs = true) (hroot : cs ≠ ['/']) :
    filename cs ≠ [] ∧ filename cs ≠ PathText.dot ∧ filename cs ≠ dotDot := by
  rcases h.cases_of_isAbsolute habs with rfl | ⟨top, rest, hst, rfl⟩
  · exact absurd rfl hroot
  · rw [(parentPath_names hst).2]
    exact ⟨hst.1.1, hst.ne_dotDot top List.mem_cons_self⟩

/-- What has an absolute parent is absolute. -/
theorem Normal.isAbsolute_of_parentPath {cs : List Char} (h : Normal cs)
    (hparent : isAbsolute (PathText.parentPath cs) = true) : isAbsolute cs = true := by
  rw [← h.join_eq]
  unfold join isAbsolute at *
  cases hp : PathText.parentPath cs with
  | nil =>
    rw [hp] at hparent
    cases hparent
  | cons c rest =>
    rw [hp] at hparent
    split <;> exact hparent

/-- The parent of an absolute text is absolute, and below the root it is shorter and leaves a
name. -/
theorem Normal.parentPath_of_isAbsolute {cs : List Char} (h : Normal cs)
    (habs : isAbsolute cs = true) (hroot : cs ≠ ['/']) :
    isAbsolute (PathText.parentPath cs) = true ∧
      (PathText.parentPath cs).length < cs.length ∧ PathText.parentPath cs ≠ [] := by
  rcases h.cases_of_isAbsolute habs with rfl | ⟨top, rest, hst, rfl⟩
  · exact absurd rfl hroot
  · obtain ⟨hparent, hname⟩ := parentPath_names hst
    have htop : 0 < top.length := List.length_pos_iff.mpr hst.1.1
    rw [hparent]
    refine ⟨by simp [isAbsolute, render], ?_, by simp [render]⟩
    rw [List.reverse_cons, render_concat]
    split
    · rename_i hnil
      rw [hnil, List.length_append]
      omega
    · rw [List.length_append, List.length_cons]
      omega

end PathText
