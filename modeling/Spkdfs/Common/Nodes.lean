import Spkdfs.Common.Node

/-!
# Lists of nodes

`to_string` of a `vector<Node>` and `parse_nodes` of `common/node.cpp`.  A list is
written as `ip:port` with commas between the nodes, and it is read from tokens `ip` and
`ip:port`.

`parse_nodes` reads every token into one variable.  A token without a port leaves the
port of the variable as it is, so that the node gets the port of the last token that has
one.  `parsesAlone_iff_portsReset` says for which tokens this is the same as reading
each of them alone, and `roundtrips_iff` for which lists `parse_nodes` reads what
`to_string` has written.
-/

namespace Spkdfs

open Delimited

/-- `to_string` of a list of nodes.  `pop_back` needs a text that is not empty. -/
def nodesToText (nodes : List Node) : Except Abrupt String :=
  if nodes = [] then .error .undefined
  else .ok (String.ofList (terminated ',' (nodes.map fun node => node.toText.toList)).dropLast)

/-- The loop of `parse_nodes`.  All tokens are read into the variable `node`. -/
def parseLoop (node : Node) : List (List Char) → Except Exception (List Node)
  | [] => .ok []
  | token :: tokens => do
    let node ← Node.fromText (String.ofList token) node
    let res ← parseLoop node tokens
    return node :: res

/-- `parse_nodes`. -/
def parseNodes (nodesStr : String) : Except Exception (List Node) :=
  parseLoop ⟨"", 0, .unknown⟩ (pieces ',' nodesStr.toList)

/-! ## Tokens -/

/-- The text of a port, with the number that `std::stoi` reads from it. -/
structure PortText where
  text : String
  value : Int
  plain : ∀ c ∈ [',', '\n'], c ∉ text.toList
  reads : stoi text.toList = .ok value

/-- A token of the list, `ip` or `ip:port`. -/
structure NodeToken where
  ip : String
  port : Option PortText
  ip_ne : ip ≠ ""
  ip_plain : ∀ c ∈ [':', ','], c ∉ ip.toList

namespace NodeToken

def text (t : NodeToken) : String :=
  match t.port with
  | none => t.ip
  | some p => t.ip ++ ":" ++ p.text

/-- The port of a token that is read into a variable with the given port. -/
def readPort (port : Int) (t : NodeToken) : Int :=
  match t.port with
  | none => port
  | some p => p.value

/-- The node that a token stands for. -/
def node (t : NodeToken) : Node := ⟨t.ip, t.readPort 0, .unknown⟩

/-- The text of a list of tokens, with or without a comma at the end. -/
def listText (trailing : Bool) (tokens : List NodeToken) : String :=
  let text := terminated ',' (tokens.map fun t => t.text.toList)
  String.ofList (if trailing then text else text.dropLast)

/-- The port that the variable has behind some tokens: the one of the last token that has
any. -/
def lastPort (port : Int) (tokens : List NodeToken) : Int := tokens.foldl readPort port

/-- Every token gives the node that it stands for. -/
def ParsesAlone (trailing : Bool) (tokens : List NodeToken) : Prop :=
  parseNodes (listText trailing tokens) = .ok (tokens.map node)

/-- In front of a token without a port, the last port is zero or there is none. -/
def PortsReset (tokens : List NodeToken) : Prop :=
  ∀ front t back, tokens = front ++ t :: back → t.port = none → lastPort 0 front = 0

theorem text_of_none {t : NodeToken} (h : t.port = none) : t.text = t.ip := by
  rw [text, h]

theorem toList_text_of_some {t : NodeToken} {p : PortText} (h : t.port = some p) :
    t.text.toList = t.ip.toList ++ ':' :: p.text.toList := by
  rw [text, h]
  show (t.ip ++ ":" ++ p.text).toList = _
  rw [String.toList_append, String.toList_append, List.append_assoc]
  rfl

/-- A token is one piece of the list. -/
theorem text_piece (t : NodeToken) : ',' ∉ t.text.toList ∧ t.text.toList ≠ [] := by
  have hip : ',' ∉ t.ip.toList := t.ip_plain ',' (by simp)
  cases hport : t.port with
  | none =>
    rw [text_of_none hport]
    exact ⟨hip, fun h => t.ip_ne (String.toList_inj.mp h)⟩
  | some p =>
    rw [toList_text_of_some hport, List.mem_append, List.mem_cons]
    refine ⟨?_, by simp⟩
    rintro (hmem | hmem | hmem)
    · exact hip hmem
    · exact absurd hmem (by decide)
    · exact p.plain ',' (by simp) hmem

theorem fromText_text (t : NodeToken) (node : Node) :
    Node.fromText t.text node = .ok { node with ip := t.ip, port := t.readPort node.port } := by
  have hip : ':' ∉ t.ip.toList := t.ip_plain ':' (by simp)
  unfold readPort
  cases hport : t.port with
  | none =>
    rw [text_of_none hport]
    exact Node.fromText_of_not_mem hip node
  | some p =>
    have hne : p.text.toList ≠ [] := by
      intro h
      have := p.reads
      rw [h] at this
      cases this
    exact Node.fromText_of_port (toList_text_of_some hport) hip (p.plain '\n' (by simp)) hne
      p.reads node

/-! ## The loop -/

/-- The nodes that the loop makes of some tokens. -/
def readAll : Int → List NodeToken → List Node
  | _, [] => []
  | port, t :: tokens => ⟨t.ip, t.readPort port, .unknown⟩ :: readAll (t.readPort port) tokens

theorem parseLoop_eq (tokens : List NodeToken) (ip : String) (port : Int) :
    parseLoop ⟨ip, port, .unknown⟩ (tokens.map fun t => t.text.toList) =
      .ok (readAll port tokens) := by
  induction tokens generalizing ip port with
  | nil => rfl
  | cons t tokens ih =>
    rw [List.map_cons, parseLoop, String.ofList_toList, fromText_text]
    show (do
      let res ← parseLoop ⟨t.ip, t.readPort port, .unknown⟩ (tokens.map _)
      return _ :: res) = _
    rw [ih]
    rfl

theorem parseNodes_listText (trailing : Bool) (tokens : List NodeToken) :
    parseNodes (listText trailing tokens) = .ok (readAll 0 tokens) := by
  have hpieces : ∀ p ∈ tokens.map fun t : NodeToken => t.text.toList, ',' ∉ p ∧ p ≠ [] := by
    intro p hp
    obtain ⟨t, _, rfl⟩ := List.mem_map.mp hp
    exact t.text_piece
  have hread : pieces ',' (listText trailing tokens).toList =
      tokens.map fun t => t.text.toList := by
    unfold listText
    rw [String.toList_ofList]
    cases trailing with
    | true => exact pieces_terminated fun p hp => (hpieces p hp).1
    | false => exact pieces_dropLast_terminated hpieces
  rw [parseNodes, hread]
  exact parseLoop_eq tokens "" 0

/-- The port is the one of the token alone, if the token has one or the variable has port
zero. -/
theorem readPort_eq_iff (t : NodeToken) (port : Int) :
    t.readPort port = t.readPort 0 ↔ (t.port = none → port = 0) := by
  unfold readPort
  cases t.port with
  | none => simp
  | some p => simp

theorem readAll_eq_map_iff (tokens : List NodeToken) (port : Int) :
    readAll port tokens = tokens.map node ↔
      ∀ front t back, tokens = front ++ t :: back → t.port = none → lastPort port front = 0 := by
  induction tokens generalizing port with
  | nil => simp [readAll]
  | cons t tokens ih =>
    have hhead : (⟨t.ip, t.readPort port, .unknown⟩ : Node) = t.node ↔
        (t.port = none → port = 0) := by
      rw [← readPort_eq_iff]
      simp [node]
    rw [readAll, List.map_cons, List.cons.injEq, hhead, ih]
    constructor
    · rintro ⟨hfirst, hrest⟩ front t' back hsplit hnone
      cases front with
      | nil =>
        obtain ⟨rfl, rfl⟩ := List.cons.inj hsplit
        exact hfirst hnone
      | cons f front =>
        obtain ⟨rfl, htokens⟩ := List.cons.inj hsplit
        exact hrest front t' back htokens hnone
    · intro h
      refine ⟨h [] t tokens rfl, ?_⟩
      intro front t' back hsplit hnone
      exact h (t :: front) t' back (by rw [hsplit, List.cons_append]) hnone

theorem parsesAlone_iff_portsReset (trailing : Bool) (tokens : List NodeToken) :
    ParsesAlone trailing tokens ↔ PortsReset tokens := by
  unfold ParsesAlone PortsReset
  rw [parseNodes_listText, Except.ok.injEq]
  exact readAll_eq_map_iff tokens 0

end NodeToken

/-! ## Reading what was written -/

/-- `parse_nodes` reads what `to_string` has written, up to the status. -/
def Roundtrips (nodes : List Node) : Prop :=
  ∃ s res, nodesToText nodes = .ok s ∧ parseNodes s = .ok res ∧
    res.map Node.ip = nodes.map Node.ip ∧ res.map Node.port = nodes.map Node.port

/-- The port is an `int`. -/
def Node.PortIsInt (node : Node) : Prop := -2147483648 ≤ node.port ∧ node.port ≤ 2147483647

/-- The ip has no delimiter in it. -/
def Node.IpIsPlain (node : Node) : Prop := ∀ c ∈ [':', ','], c ∉ node.ip.toList

theorem ip_of_fromText {text : List Char} {node node' : Node}
    (h : Node.fromText (String.ofList text) node = .ok node') :
    node'.ip = String.ofList (field ':' text) := by
  rw [Node.fromText, String.toList_ofList] at h
  split at h
  · rw [← Except.ok.inj h]
  · obtain ⟨port, _, h⟩ := bind_eq_ok.mp h
    rw [← Except.ok.inj h]

/-- Every piece gives one node, whose ip is the text up to the first colon. -/
theorem map_ip_of_parseLoop {tokens : List (List Char)} {node : Node} {res : List Node}
    (h : parseLoop node tokens = .ok res) :
    res.map Node.ip = tokens.map fun t => String.ofList (field ':' t) := by
  induction tokens generalizing node res with
  | nil =>
    rw [← Except.ok.inj h]
    rfl
  | cons t tokens ih =>
    obtain ⟨node', hnode, h⟩ := bind_eq_ok.mp h
    obtain ⟨rest, hrest, h⟩ := bind_eq_ok.mp h
    rw [← Except.ok.inj h, List.map_cons, List.map_cons, ih hrest, ip_of_fromText hnode]

/-- The variable gets both fields from every text of a node. -/
theorem parseLoop_toText {nodes : List Node} (hplain : ∀ node ∈ nodes, node.IpIsPlain)
    (hport : ∀ node ∈ nodes, node.PortIsInt) (base : Node) :
    parseLoop base (nodes.map fun node => node.toText.toList) =
      .ok (nodes.map fun node => { base with ip := node.ip, port := node.port }) := by
  induction nodes generalizing base with
  | nil => rfl
  | cons node nodes ih =>
    obtain ⟨hlo, hhi⟩ := hport node List.mem_cons_self
    have hip : ':' ∉ node.ip.toList := hplain node List.mem_cons_self ':' (by simp)
    rw [List.map_cons, parseLoop, String.ofList_toList, Node.fromText_toText hip hlo hhi]
    show (do
      let res ← parseLoop _ _
      return _ :: res) = _
    rw [ih (fun n hn => hplain n (List.mem_cons_of_mem _ hn))
      fun n hn => hport n (List.mem_cons_of_mem _ hn)]
    rfl

theorem comma_mem_toText_iff (node : Node) : ',' ∈ node.toText.toList ↔ ',' ∈ node.ip.toList := by
  rw [Node.toText_toList, List.mem_append, List.mem_cons]
  have hport : ',' ∉ node.port.repr.toList := not_mem_repr (by decide) (by decide) _
  simp [hport]

theorem getLast?_toText_ne (node : Node) : node.toText.toList.getLast? ≠ some ',' := by
  have hport : ',' ∉ node.port.repr.toList := not_mem_repr (by decide) (by decide) _
  rw [Node.toText_toList, List.getLast?_append, List.getLast?_cons]
  intro h
  simp only [Option.some_or, Option.some.injEq] at h
  cases hlast : node.port.repr.toList.getLast? with
  | none => exact toList_int_repr_ne_nil _ (List.getLast?_eq_none_iff.mp hlast)
  | some c =>
    rw [hlast] at h
    exact hport (List.mem_of_getLast? (hlast.trans (congrArg some h)))

/-- The pieces of the text of a list are those of the text with one more comma. -/
theorem pieces_dropLast_toText {nodes : List Node} (hne : nodes ≠ []) :
    pieces ',' (terminated ',' (nodes.map fun node => node.toText.toList)).dropLast =
      pieces ',' (terminated ',' (nodes.map fun node => node.toText.toList)) := by
  obtain ⟨front, node, rfl⟩ : ∃ front node, nodes = front ++ [node] :=
    ⟨_, _, (List.dropLast_concat_getLast hne).symm⟩
  have htext : node.toText.toList ≠ [] := by simp [Node.toText_toList]
  rw [List.map_append, List.map_singleton, terminated_concat, List.dropLast_concat, pieces_concat]
  · simp [htext]
  · rw [List.getLast?_append, List.getLast?_eq_some_getLast htext, Option.some_or,
      ← List.getLast?_eq_some_getLast htext]
    exact getLast?_toText_ne node

theorem roundtrips_of_plain {nodes : List Node} (hne : nodes ≠ [])
    (hplain : ∀ node ∈ nodes, node.IpIsPlain) (hport : ∀ node ∈ nodes, node.PortIsInt) :
    Roundtrips nodes := by
  have hpieces : ∀ p ∈ nodes.map fun node : Node => node.toText.toList, ',' ∉ p := by
    intro p hp
    obtain ⟨node, hnode, rfl⟩ := List.mem_map.mp hp
    rw [comma_mem_toText_iff]
    exact hplain node hnode ',' (by simp)
  refine ⟨_, nodes.map fun node => ⟨node.ip, node.port, .unknown⟩, if_neg hne, ?_, ?_, ?_⟩
  · rw [parseNodes, String.toList_ofList, pieces_dropLast_toText hne, pieces_terminated hpieces]
    exact parseLoop_toText hplain hport _
  · rw [List.map_map]
    rfl
  · rw [List.map_map]
    rfl

theorem plain_of_roundtrips {nodes : List Node} (hne : nodes ≠ []) (h : Roundtrips nodes) :
    ∀ node ∈ nodes, node.IpIsPlain := by
  obtain ⟨s, res, hs, hparse, hips, _⟩ := h
  rw [nodesToText, if_neg hne] at hs
  rw [parseNodes, ← Except.ok.inj hs, String.toList_ofList] at hparse
  have hread := map_ip_of_parseLoop hparse
  rw [pieces_dropLast_toText hne] at hread
  -- There are as many pieces as nodes, so that no text has a comma in it.
  have hlength := congrArg List.length (hips.symm.trans hread)
  rw [List.length_map, List.length_map, length_pieces_terminated] at hlength
  have hpieces : ∀ p ∈ nodes.map fun node : Node => node.toText.toList, ',' ∉ p :=
    not_mem_of_count_terminated (by rw [List.length_map]; omega)
  -- The pieces are the texts of the nodes, and no ip that is read has a colon in it.
  rw [pieces_terminated hpieces, hips, List.map_map] at hread
  intro node hnode c hc
  have hip : node.ip = String.ofList (field ':' node.toText.toList) :=
    List.map_inj_left.mp hread node hnode
  rcases List.mem_cons.mp hc with rfl | hc
  · rw [hip, String.toList_ofList]
    exact not_mem_field _ _
  · rw [List.mem_singleton.mp hc, ← comma_mem_toText_iff]
    exact hpieces _ (List.mem_map_of_mem hnode)

/-! ## When the tokens are read alone -/

/-- `parse_nodes` gives every token its own node exactly if no token without a port stands
behind one with a port other than zero.  It reads back a list of nodes exactly if no ip of
the list has a colon or a comma in it. -/
theorem parsesAlone_and_roundtrips_iff (trailing : Bool) (tokens : List NodeToken)
    (nodes : List Node) :
    (NodeToken.ParsesAlone trailing tokens ↔ NodeToken.PortsReset tokens) ∧
      (nodes ≠ [] → (∀ node ∈ nodes, node.PortIsInt) →
        (Roundtrips nodes ↔ ∀ node ∈ nodes, node.IpIsPlain)) := by
  refine ⟨NodeToken.parsesAlone_iff_portsReset trailing tokens, fun hne hport => ?_⟩
  exact ⟨plain_of_roundtrips hne, fun hplain => roundtrips_of_plain hne hplain hport⟩

/-- The token `127.0.0.1:10086`. -/
def portToken : NodeToken :=
  ⟨"127.0.0.1", some ⟨"10086", 10086, forall_not_mem_of_all (by decide), by rfl⟩, by decide,
    forall_not_mem_of_all (by decide)⟩

/-- The token `127.0.0.2`. -/
def bareToken : NodeToken := ⟨"127.0.0.2", none, by decide, forall_not_mem_of_all (by decide)⟩

/-- A token without a port in front of one with a port, and a list of two nodes. -/
theorem parsesAlone_and_roundtrips_bareFirst :
    let nodes : List Node := [⟨"127.0.0.1", 10086, .online⟩, ⟨"127.0.0.2", -1, .offline⟩]
    (nodes ≠ [] ∧ ∀ node ∈ nodes, node.PortIsInt) ∧
      parseNodes "127.0.0.2,127.0.0.1:10086," = .ok [bareToken.node, portToken.node] ∧
      Roundtrips nodes := by
  intro nodes
  have hne : nodes ≠ [] := by decide
  have hport : ∀ node ∈ nodes, node.PortIsInt := by
    unfold Node.PortIsInt
    decide
  have hiff := parsesAlone_and_roundtrips_iff true [bareToken, portToken] nodes
  refine ⟨⟨hne, hport⟩, hiff.1.mpr ?_, (hiff.2 hne hport).mpr ?_⟩
  · intro front t back hsplit hnone
    cases front with
    | nil => rfl
    | cons f front =>
      obtain ⟨rfl, hback⟩ := List.cons.inj hsplit
      cases front with
      | nil =>
        obtain ⟨rfl, _⟩ := List.cons.inj hback
        cases hnone
      | cons f front => simp at hback
  · simp only [nodes, List.mem_cons, List.not_mem_nil, or_false]
    rintro node (rfl | rfl)
    · exact forall_not_mem_of_all (by decide)
    · exact forall_not_mem_of_all (by decide)

/-- The second node gets the port of the first token. -/
theorem not_parsesAlone_staleToken :
    parseNodes "127.0.0.1:10086,127.0.0.2" =
        .ok [⟨"127.0.0.1", 10086, .unknown⟩, ⟨"127.0.0.2", 10086, .unknown⟩] ∧
      ¬ ∀ (trailing : Bool) (tokens : List NodeToken), NodeToken.ParsesAlone trailing tokens := by
  have htext : NodeToken.listText false [portToken, bareToken] = "127.0.0.1:10086,127.0.0.2" := by
    decide
  constructor
  · rw [← htext, NodeToken.parseNodes_listText]
    rfl
  · intro h
    have hreset := (NodeToken.parsesAlone_iff_portsReset false _).mp
      (h false [portToken, bareToken])
    exact absurd (hreset [portToken] bareToken [] rfl rfl) (by decide)

end Spkdfs
