import Mathlib.Computability.Language
import Parabix.RE.Transformer

namespace Parabix.RE

open Library Library.Powers Library.Encoding UCD

/-- What is behind the address of a node of another kind. -/
inductive Node where
  | capture (name : String) (capturedRE : RE)
  | reference (name : String) (capture : ℕ) (inst : ℕ)

def Kind.reverse : Kind → Kind
  | .LookBehind => .LookAhead
  | .LookAhead => .LookBehind

/-- The nodes that were made so far, and the captures by their old names, with the numbers of their
references. -/
structure ReverseTransformer where
  nodes : List Node
  mCaptureMap : List (String × ℕ × ℕ)

namespace ReverseTransformer

/-- The new expression, if it is another one, and what was made on the way. -/
abbrev Reversed := Except Fault (Option RE × ReverseTransformer)

def keys (s : ReverseTransformer) : List String := s.mCaptureMap.map (·.1)

/-- A new node. -/
def create (s : ReverseTransformer) (node : Node) : ReverseTransformer :=
  { s with nodes := s.nodes ++ [node] }

/-- An entry for a name, if it has none. -/
def emplace (s : ReverseTransformer) (cname : String) (capture : ℕ) : ReverseTransformer :=
  if (s.mCaptureMap.lookup cname).isSome then s
  else { s with mCaptureMap := s.mCaptureMap ++ [(cname, capture, 0)] }

def countInstance (s : ReverseTransformer) (cname : String) : ReverseTransformer :=
  { s with mCaptureMap := s.mCaptureMap.map fun entry ↦
      if entry.1 = cname then (entry.1, entry.2.1, entry.2.2 + 1) else entry }

/-- The name of a node. -/
def getName (s : ReverseTransformer) (node : ℕ) : String :=
  match s.nodes[node]? with
  | some (.capture n _) => n
  | some (.reference n _ _) => n
  | none => ""

/-- A reference to a capture that was made before. -/
def refer (s : ReverseTransformer) (cname n : String) (captured instanceCount : ℕ) :
    Option RE × ReverseTransformer :=
  (some (other s.nodes.length),
    (s.create (.reference n captured instanceCount)).countInstance cname)

section Transform

variable (same : RE → RE → Bool)

-- What becomes of a captured expression.
variable (captured : RE → ReverseTransformer → Reversed)

/-- A capture of the reversed expression, under a new name. -/
def capture (s : ReverseTransformer) (cname : String) (capturedRE : RE) : Reversed := do
  let newName := "\\" ++ toString (s.mCaptureMap.length + 1)
  let (x, s) ← captured capturedRE s
  return (some (other s.nodes.length),
    (s.create (.capture newName (x.getD capturedRE))).emplace cname s.nodes.length)

def transformCapture (cname : String) (capturedRE : RE) (s : ReverseTransformer) : Reversed :=
  match s.mCaptureMap.lookup cname with
  | some (c, instanceCount) => .ok (s.refer cname (s.getName c) c instanceCount)
  | none => capture captured s cname capturedRE

def transformReference (cname : String) (referent : ℕ) (s : ReverseTransformer) : Reversed :=
  match s.mCaptureMap.lookup cname with
  | some (c, instanceCount) => .ok (s.refer cname cname c instanceCount)
  | none =>
    match s.nodes[referent]? with
    | some (.capture _ capturedRE) => capture captured s cname capturedRE
    | _ => .error .memory

/-- A node of a kind that has no parts is kept. -/
def transformNode (node : ℕ) (s : ReverseTransformer) : Reversed :=
  match s.nodes[node]? with
  | some (.capture cname capturedRE) => transformCapture captured cname capturedRE s
  | some (.reference cname referent _) => transformReference captured cname referent s
  | none => .ok (none, s)

mutual

def transformWith : RE → ReverseTransformer → Reversed
  | alt elems, s => do
    let (elems1, any_changed, s) ← transformItems elems s
    if any_changed then return (some (← makeAlt elems1), s) else return (none, s)
  | any, s => .ok (none, s)
  | assertion asserted kind sense, s => do
    let (reversed, s) ← transformWith asserted s
    return (some (← makeAssertion (reversed.getD asserted) kind.reverse sense), s)
  | cc _, s => .ok (none, s)
  | diff x0 y0, s => do
    let (x, s) ← transformWith x0 s
    let (y, s) ← transformWith y0 s
    if x.isSome || y.isSome then
      return (some (← makeDiff same (x.getD x0) (y.getD y0)), s)
    else
      return (none, s)
  | intersect x0 y0, s => do
    let (x, s) ← transformWith x0 s
    let (y, s) ← transformWith y0 s
    if x.isSome || y.isSome then
      return (some (← makeIntersect same (x.getD x0) (y.getD y0)), s)
    else
      return (none, s)
  | name _ _, s => .ok (none, s)
  | rep x0 lb ub, s => do
    let (x, s) ← transformWith x0 s
    match x with
    | none => return (none, s)
    | some x => return (some (← makeRep x lb ub), s)
  | seq elems, s => do
    let (list, s) ← transformBack elems s
    return (some (makeSeq list), s)
  | start, s => .ok (some stop, s)
  | stop, s => .ok (some start, s)
  | other node, s => transformNode captured node s

def transformItems : List RE → ReverseTransformer →
    Except Fault (List RE × Bool × ReverseTransformer)
  | [], s => .ok ([], false, s)
  | e :: elems, s => do
    let (e1, s) ← transformWith e s
    let (elems1, any_changed, s) ← transformItems elems s
    return (e1.getD e :: elems1, e1.isSome || any_changed, s)

/-- The items from the last one on. -/
def transformBack : List RE → ReverseTransformer → Except Fault (List RE × ReverseTransformer)
  | [], s => .ok ([], s)
  | e :: elems, s => do
    let (list, s) ← transformBack elems s
    let (e1, s) ← transformWith e s
    return (list ++ [e1.getD e], s)

end

theorem transformWith_other (node : ℕ) (s : ReverseTransformer) :
    transformWith same captured (other node) s = transformNode captured node s := by
  rw [transformWith]

/-- Captures may be nested up to the depth that is given. -/
def transform : ℕ → RE → ReverseTransformer → Reversed
  | 0 => fun _ _ ↦ .error .fuel
  | depth + 1 => transformWith same (transform depth)

end Transform

end ReverseTransformer

/-- The reversed expression, and the nodes of other kinds that it is made of. -/
def reverse (same : RE → RE → Bool) (depth : ℕ) (re : RE) (nodes : List Node) :
    Except Fault (RE × List Node) := do
  let (reversed, s) ← ReverseTransformer.transform same depth re ⟨nodes, []⟩
  return (reversed.getD re, s.nodes)
open RE_Star_Normal (makeAssertion_spec makeDiff_valid makeIntersect_valid)

namespace ReverseTransformer

section Condition

/-- What the leaves match, read from the other end. -/
structure Mirrors (M M' : Meaning (Language ℕ)) : Prop where
  any : M'.any = M.any.reverse
  assertion (k : Kind) (s : Sense) (x : Language ℕ) :
    M'.assertion k.reverse s x.reverse = (M.assertion k s x).reverse
  start : M'.stop = M.start.reverse
  stop : M'.start = M.stop.reverse

/-- A capture matches what its expression does. -/
def Consistent (M : Meaning (Language ℕ)) (nodes : List Node) : Prop :=
  ∀ node cname capturedRE, nodes[node]? = some (.capture cname capturedRE) →
    M.other node = denote M capturedRE

variable (same : RE → RE → Bool) (M M' : Meaning (Language ℕ)) (nodes : List Node)

/-- The definition of a name is the same from both ends, no capture has the name of one before it,
and the constructors of the other nodes are right. -/
inductive Reversible : RE → List String → Prop
  | alt {elems : List RE} (names : RE → List String)
    (h : ∀ e ∈ elems, Reversible e (names e))
    (hnames : elems.Pairwise fun a b ↦ (names a).Disjoint (names b))
    (hnew : ∀ depth s elems1 s', transformItems same (transform same depth) elems s =
      .ok (elems1, true, s') → ∀ e ∈ elems1, Optional e) :
    Reversible (alt elems) (elems.flatMap names)
  | any : Reversible any []
  | assertion {asserted : RE} {names : List String} (k : Kind) (s : Sense)
    (h : Reversible asserted names) : Reversible (assertion asserted k s) names
  | capture {node : ℕ} {cname : String} {capturedRE : RE} {names : List String}
    (hnode : nodes[node]? = some (.capture cname capturedRE)) (hv : capturedRE.Valid)
    (h : Reversible capturedRE names) : Reversible (other node) (cname :: names)
  | cc (c : CC) : Reversible (cc c) []
  | diff {lh rh : RE} {names names' : List String} (hl : Reversible lh names)
    (hr : Reversible rh names') (hnames : names.Disjoint names')
    (hnew : ∀ depth s x s' y s'', transformWith same (transform same depth) lh s = .ok (x, s') →
      transformWith same (transform same depth) rh s' = .ok (y, s'') →
      (x.isSome || y.isSome) = true → DiffReady same M' (x.getD lh) (y.getD rh)) :
    Reversible (diff lh rh) (names ++ names')
  | intersect {lh rh : RE} {names names' : List String} (hl : Reversible lh names)
    (hr : Reversible rh names') (hnames : names.Disjoint names')
    (hnew : ∀ depth s x s' y s'', transformWith same (transform same depth) lh s = .ok (x, s') →
      transformWith same (transform same depth) rh s' = .ok (y, s'') →
      (x.isSome || y.isSome) = true → IntersectReady same M' (x.getD lh) (y.getD rh)) :
    Reversible (intersect lh rh) (names ++ names')
  | name (n : String) {definition : RE}
    (h : denote M' definition = (denote M definition).reverse) : Reversible (name n definition) []
  | rep {re : RE} {lb ub : ℤ} {names : List String} (h : Reversible re names)
    (hnew : ∀ depth s x s', transformWith same (transform same depth) re s = .ok (some x, s') →
      RepSafe x.outline lb ub) : Reversible (rep re lb ub) names
  | seq {elems : List RE} (names : RE → List String) (h : ∀ e ∈ elems, Reversible e (names e))
    (hnames : elems.Pairwise fun a b ↦ (names a).Disjoint (names b)) :
    Reversible (seq elems) (elems.flatMap names)
  | start : Reversible start []
  | stop : Reversible stop []

end Condition

section Languages

variable {x y : Language ℕ} {s : Set ℕ}

theorem reverse_bot : (⊥ : Language ℕ).reverse = ⊥ := rfl

theorem reverse_sup : (x ⊔ y).reverse = x.reverse ⊔ y.reverse := rfl

theorem reverse_sdiff : (x \ y).reverse = x.reverse \ y.reverse := rfl

theorem reverse_inf : (x ⊓ y).reverse = x.reverse ⊓ y.reverse := rfl

theorem reverse_letters : (letters s).reverse = letters s := by
  apply Set.ext
  intro w
  constructor
  · rintro ⟨a, ha, hw⟩
    exact ⟨a, ha, by rw [← List.reverse_reverse w, hw, List.reverse_singleton]⟩
  · rintro ⟨a, ha, rfl⟩
    exact ⟨a, ha, List.reverse_singleton⟩

theorem reverse_powers : (powers x s).reverse = powers x.reverse s := by
  simp only [powers, Language.reverse_iSup, Language.reverse_pow]

end Languages

section State

variable {s : ReverseTransformer} {cname n : String} {c k : ℕ} {node : Node}

theorem keys_emplace (h : n ∈ (s.emplace cname c).keys) : n ∈ s.keys ∨ n = cname := by
  rw [emplace] at h
  split_ifs at h
  · exact .inl h
  · rw [keys, List.map_append, List.mem_append] at h
    exact h.imp_right List.mem_singleton.1

theorem lookup_eq_none (h : cname ∉ s.keys) : s.mCaptureMap.lookup cname = none := by
  rw [List.lookup_eq_none_iff]
  intro entry hentry
  have hne : entry.1 ≠ cname := fun heq ↦ h (heq ▸ List.mem_map_of_mem hentry)
  exact bne_iff_ne.2 hne.symm

theorem nodes_emplace : (s.emplace cname c).nodes = s.nodes := by
  rw [emplace]
  split_ifs
  · rfl
  · rfl

end State

section Done

variable {s s' s'' : ReverseTransformer} {names names' : List String} {M : Meaning (Language ℕ)}
variable {nodes nodes' : List Node} {cname n : String} {k : ℕ}

/-- Nodes are only added. -/
def Extends (nodes nodes' : List Node) : Prop := ∃ made, nodes' = nodes ++ made

theorem Extends.trans {nodes'' : List Node} (h : Extends nodes nodes')
    (h' : Extends nodes' nodes'') : Extends nodes nodes'' := by
  obtain ⟨made, rfl⟩ := h
  obtain ⟨made', rfl⟩ := h'
  exact ⟨made ++ made', List.append_assoc ..⟩

theorem Extends.refl (nodes : List Node) : Extends nodes nodes := ⟨[], (List.append_nil _).symm⟩

theorem Extends.getElem? {node : Node} (h : Extends nodes nodes') (hk : nodes[k]? = some node) :
    nodes'[k]? = some node := by
  obtain ⟨made, rfl⟩ := h
  rw [List.getElem?_append_left (List.getElem?_eq_some_iff.1 hk).1, hk]

theorem Consistent.of_extends (h : Consistent M nodes') (hle : Extends nodes nodes') :
    Consistent M nodes := fun node cname capturedRE hnode ↦
  h node cname capturedRE (hle.getElem? hnode)

/-- What is made on the way through an expression with captures of some names. -/
structure Done (s s' : ReverseTransformer) (names : List String) : Prop where
  nodes : Extends s.nodes s'.nodes
  keys : ∀ n ∈ s'.keys, n ∈ s.keys ∨ n ∈ names

theorem Done.refl (s : ReverseTransformer) (names : List String) : Done s s names :=
  ⟨.refl _, fun _ h ↦ .inl h⟩

theorem Done.trans (h : Done s s' names) (h' : Done s' s'' names') :
    Done s s'' (names ++ names') := by
  refine ⟨h.nodes.trans h'.nodes, fun n hn ↦ ?_⟩
  rw [List.mem_append]
  obtain hn | hn := h'.keys n hn
  · exact (h.keys n hn).imp_right .inl
  · exact .inr (.inr hn)

theorem Done.mono (h : Done s s' names) (hle : ∀ n ∈ names, n ∈ names') : Done s s' names' :=
  ⟨h.nodes, fun n hn ↦ (h.keys n hn).imp_right (hle n)⟩

theorem Done.not_mem (h : Done s s' names) (hdisjoint : names.Disjoint names')
    (hnew : ∀ n ∈ names', n ∉ s.keys) : ∀ n ∈ names', n ∉ s'.keys :=
  fun n hn hkey ↦ (h.keys n hkey).elim (hnew n hn) fun hmem ↦ hdisjoint hmem hn

end Done

section Spec

variable {same : RE → RE → Bool} {M M' : Meaning (Language ℕ)} {nodes : List Node}
variable {e lh rh : RE} {elems : List RE} {names names' : List String} {lb ub : ℤ}

/-- With enough depth the new expression, or the old one, has the language read from the other
end. -/
def Reverses (same : RE → RE → Bool) (M M' : Meaning (Language ℕ)) (nodes : List Node) (e : RE)
    (names : List String) : Prop :=
  ∃ N, ∀ depth, N ≤ depth → ∀ s, Extends nodes s.nodes → (∀ n ∈ names, n ∉ s.keys) →
    ∃ o s', transformWith same (transform same depth) e s = .ok (o, s') ∧ Done s s' names ∧
      (o.getD e).Valid ∧
        (Consistent M' s'.nodes → denote M' (o.getD e) = (denote M e).reverse)

theorem reverses_none (hv : e.Valid) (h : denote M' e = (denote M e).reverse)
    (ht : ∀ captured s, transformWith same captured e s = .ok (none, s)) :
    Reverses same M M' nodes e names :=
  ⟨0, fun _ _ s _ _ ↦ ⟨none, s, ht _ s, .refl s names, hv, fun _ ↦ h⟩⟩

theorem transformItems_spec {names : RE → List String}
    (h : ∀ e ∈ elems, Reverses same M M' nodes e (names e))
    (hnames : elems.Pairwise fun a b ↦ (names a).Disjoint (names b)) :
    ∃ N, ∀ depth, N ≤ depth → ∀ s, Extends nodes s.nodes →
      (∀ n ∈ elems.flatMap names, n ∉ s.keys) →
      ∃ elems1 any_changed s', transformItems same (transform same depth) elems s =
        .ok (elems1, any_changed, s') ∧ Done s s' (elems.flatMap names) ∧
          (∀ e ∈ elems1, e.Valid) ∧ (any_changed = false → elems1 = elems) ∧
            (Consistent M' s'.nodes → denoteAlt M' elems1 = (denoteAlt M elems).reverse) := by
  induction elems with
  | nil =>
    exact ⟨0, fun _ _ s _ _ ↦ ⟨[], false, s, rfl, .refl s _, List.forall_mem_nil _, fun _ ↦ rfl,
      fun _ ↦ reverse_bot.symm⟩⟩
  | cons e elems ih =>
    obtain ⟨⟨N, he⟩, helems⟩ := List.forall_mem_cons.1 h
    obtain ⟨hdisjoint, hpairs⟩ := List.pairwise_cons.1 hnames
    obtain ⟨N', hrest⟩ := ih helems hpairs
    refine ⟨max N N', fun depth hdepth s hs hnew ↦ ?_⟩
    rw [List.flatMap_cons] at hnew ⊢
    obtain ⟨hnewe, hnewrest⟩ := List.forall_mem_append.1 hnew
    obtain ⟨o, s1, ht, hdone, hvo, hdenote⟩ :=
      he depth ((le_max_left _ _).trans hdepth) s hs hnewe
    have hsep : (names e).Disjoint (elems.flatMap names) := by
      intro n hn hmem
      obtain ⟨x, hx, hnx⟩ := List.mem_flatMap.1 hmem
      exact hdisjoint x hx hn hnx
    obtain ⟨elems1, any_changed, s2, ht2, hdone2, hvalid, hkept, hdenote2⟩ :=
      hrest depth ((le_max_right _ _).trans hdepth) s1 (hs.trans hdone.nodes)
        (hdone.not_mem hsep hnewrest)
    refine ⟨o.getD e :: elems1, o.isSome || any_changed, s2, ?_, hdone.trans hdone2,
      List.forall_mem_cons.2 ⟨hvo, hvalid⟩, fun hnone ↦ ?_, fun hcons ↦ ?_⟩
    · rw [transformItems, ht, ok_bind]
      simp only [ht2, ok_bind]
      rfl
    · rw [Bool.or_eq_false_iff] at hnone
      rw [hkept hnone.2, Option.isNone_iff_eq_none.1 (Option.isSome_eq_false_iff.1 hnone.1)]
      rfl
    · rw [denoteAlt, denoteAlt, hdenote (hcons.of_extends hdone2.nodes), hdenote2 hcons,
        reverse_sup]

theorem transformBack_spec {names : RE → List String}
    (h : ∀ e ∈ elems, Reverses same M M' nodes e (names e))
    (hnames : elems.Pairwise fun a b ↦ (names a).Disjoint (names b)) :
    ∃ N, ∀ depth, N ≤ depth → ∀ s, Extends nodes s.nodes →
      (∀ n ∈ elems.flatMap names, n ∉ s.keys) →
      ∃ list s', transformBack same (transform same depth) elems s = .ok (list, s') ∧
        Done s s' (elems.flatMap names) ∧ (∀ e ∈ list, e.Valid) ∧
          (Consistent M' s'.nodes → denoteSeq M' list = (denoteSeq M elems).reverse) := by
  induction elems with
  | nil =>
    exact ⟨0, fun _ _ s _ _ ↦ ⟨[], s, rfl, .refl s _, List.forall_mem_nil _,
      fun _ ↦ (@Language.reverse_one ℕ).symm⟩⟩
  | cons e elems ih =>
    obtain ⟨⟨N, he⟩, helems⟩ := List.forall_mem_cons.1 h
    obtain ⟨hdisjoint, hpairs⟩ := List.pairwise_cons.1 hnames
    obtain ⟨N', hrest⟩ := ih helems hpairs
    refine ⟨max N N', fun depth hdepth s hs hnew ↦ ?_⟩
    rw [List.flatMap_cons] at hnew ⊢
    obtain ⟨hnewe, hnewrest⟩ := List.forall_mem_append.1 hnew
    have hsep : (elems.flatMap names).Disjoint (names e) := by
      intro n hmem hn
      obtain ⟨x, hx, hnx⟩ := List.mem_flatMap.1 hmem
      exact hdisjoint x hx hn hnx
    obtain ⟨list, s1, ht, hdone, hvalid, hdenote⟩ :=
      hrest depth ((le_max_right _ _).trans hdepth) s hs hnewrest
    obtain ⟨o, s2, ht2, hdone2, hvo, hdenote2⟩ :=
      he depth ((le_max_left _ _).trans hdepth) s1 (hs.trans hdone.nodes)
        (hdone.not_mem hsep hnewe)
    refine ⟨list ++ [o.getD e], s2, ?_, (hdone.trans hdone2).mono fun n hn ↦ ?_,
      List.forall_mem_append.2 ⟨hvalid, List.forall_mem_singleton.2 hvo⟩, fun hcons ↦ ?_⟩
    · rw [transformBack, ht, ok_bind]
      simp only [ht2, ok_bind]
      rfl
    · exact List.mem_append.2 (List.mem_append.1 hn).symm
    · rw [denoteSeq_append, denoteSeq_singleton, denoteSeq, Language.reverse_mul,
        hdenote (hcons.of_extends hdone2.nodes), hdenote2 hcons]

theorem reverses_alt {names : RE → List String} (hv : (alt elems).Valid)
    (h : ∀ e ∈ elems, Reverses same M M' nodes e (names e))
    (hnames : elems.Pairwise fun a b ↦ (names a).Disjoint (names b))
    (hnew : ∀ depth s elems1 s', transformItems same (transform same depth) elems s =
      .ok (elems1, true, s') → ∀ e ∈ elems1, Optional e) :
    Reverses same M M' nodes (alt elems) (elems.flatMap names) := by
  obtain ⟨N, hitems⟩ := transformItems_spec h hnames
  refine ⟨N, fun depth hdepth s hs hkeys ↦ ?_⟩
  obtain ⟨elems1, any_changed, s', ht, hdone, hvalid, hkept, hdenote⟩ :=
    hitems depth hdepth s hs hkeys
  rw [transformWith, ht, ok_bind]
  cases any_changed with
  | false =>
    refine ⟨none, s', rfl, hdone, hv, fun hcons ↦ ?_⟩
    rw [Option.getD_none, denote, denote, ← hdenote hcons, hkept rfl]
  | true =>
    obtain ⟨r, hr, hvr, hd⟩ := makeAlt_spec (M := M') hvalid (hnew depth s elems1 s' ht)
    refine ⟨some r, s', ?_, hdone, hvr, fun hcons ↦ ?_⟩
    · simp only [if_true, hr, ok_bind]
      rfl
    · rw [Option.getD_some, hd, hdenote hcons, denote]

theorem reverses_seq {names : RE → List String}
    (h : ∀ e ∈ elems, Reverses same M M' nodes e (names e))
    (hnames : elems.Pairwise fun a b ↦ (names a).Disjoint (names b)) :
    Reverses same M M' nodes (seq elems) (elems.flatMap names) := by
  obtain ⟨N, hback⟩ := transformBack_spec h hnames
  refine ⟨N, fun depth hdepth s hs hkeys ↦ ?_⟩
  obtain ⟨list, s', ht, hdone, hvalid, hdenote⟩ := hback depth hdepth s hs hkeys
  refine ⟨some (makeSeq list), s', ?_, hdone, valid_makeSeq hvalid, fun hcons ↦ ?_⟩
  · rw [transformWith, ht, ok_bind]
    rfl
  · rw [Option.getD_some, denote_makeSeq hvalid, hdenote hcons, denote]

theorem reverses_assertion {k : Kind} {sense : Sense} (hmirrors : Mirrors M M')
    (hM' : Strings M') (h : Reverses same M M' nodes e names) :
    Reverses same M M' nodes (assertion e k sense) names := by
  obtain ⟨N, he⟩ := h
  refine ⟨N, fun depth hdepth s hs hkeys ↦ ?_⟩
  obtain ⟨o, s', ht, hdone, hvo, hdenote⟩ := he depth hdepth s hs hkeys
  obtain ⟨r, hr, hvr, hd⟩ := makeAssertion_spec hM' hvo k.reverse sense
  refine ⟨some r, s', ?_, hdone, hvr, fun hcons ↦ ?_⟩
  · rw [transformWith, ht, ok_bind]
    simp only [hr, ok_bind]
    rfl
  · rw [Option.getD_some, hd, hdenote hcons, hmirrors.assertion, denote]

theorem reverses_rep (hv : (rep e lb ub).Valid) (h : Reverses same M M' nodes e names)
    (hnew : ∀ depth s x s', transformWith same (transform same depth) e s = .ok (some x, s') →
      RepSafe x.outline lb ub) : Reverses same M M' nodes (rep e lb ub) names := by
  obtain ⟨N, he⟩ := h
  refine ⟨N, fun depth hdepth s hs hkeys ↦ ?_⟩
  obtain ⟨o, s', ht, hdone, hvo, hdenote⟩ := he depth hdepth s hs hkeys
  rw [transformWith, ht, ok_bind]
  cases o with
  | none =>
    refine ⟨none, s', rfl, hdone, hv, fun hcons ↦ ?_⟩
    rw [Option.getD_none] at hdenote
    rw [Option.getD_none, denote, denote, hdenote hcons, reverse_powers]
  | some x =>
    cases hv with
    | rep _ hb =>
      obtain ⟨r, hr, hvr, hd⟩ := makeRep_repeats (M := M') hvo hb (hnew depth s x s' ht)
      rw [Option.getD_some] at hr hd hdenote
      refine ⟨some r, s', ?_, hdone, hvr, fun hcons ↦ ?_⟩
      · simp only [hr, ok_bind]
        rfl
      · rw [Option.getD_some, hd, hdenote hcons, denote, reverse_powers]

/-- Both operands, one after the other. -/
theorem reverses_operands (hl : Reverses same M M' nodes lh names)
    (hr : Reverses same M M' nodes rh names') (hnames : names.Disjoint names') :
    ∃ N, ∀ depth, N ≤ depth → ∀ s, Extends nodes s.nodes → (∀ n ∈ names ++ names', n ∉ s.keys) →
      ∃ x s' y s'', transformWith same (transform same depth) lh s = .ok (x, s') ∧
        transformWith same (transform same depth) rh s' = .ok (y, s'') ∧
          Done s s'' (names ++ names') ∧ (x.getD lh).Valid ∧ (y.getD rh).Valid ∧
            (Consistent M' s''.nodes → denote M' (x.getD lh) = (denote M lh).reverse ∧
              denote M' (y.getD rh) = (denote M rh).reverse) := by
  obtain ⟨N, hl⟩ := hl
  obtain ⟨N', hr⟩ := hr
  refine ⟨max N N', fun depth hdepth s hs hkeys ↦ ?_⟩
  obtain ⟨hkeysl, hkeysr⟩ := List.forall_mem_append.1 hkeys
  obtain ⟨x, s1, hx, hdone, hvx, hdx⟩ := hl depth ((le_max_left _ _).trans hdepth) s hs hkeysl
  obtain ⟨y, s2, hy, hdone2, hvy, hdy⟩ := hr depth ((le_max_right _ _).trans hdepth) s1
    (hs.trans hdone.nodes) (hdone.not_mem hnames hkeysr)
  exact ⟨x, s1, y, s2, hx, hy, hdone.trans hdone2, hvx, hvy,
    fun hcons ↦ ⟨hdx (hcons.of_extends hdone2.nodes), hdy hcons⟩⟩

theorem operands_kept {x y : Option RE} (h : (x.isSome || y.isSome) = false) :
    x = none ∧ y = none := by
  rwa [Bool.or_eq_false_iff, Option.isSome_eq_false_iff, Option.isSome_eq_false_iff,
    Option.isNone_iff_eq_none, Option.isNone_iff_eq_none] at h

theorem reverses_diff (hsame : ∀ a b, same a b = true → a = b) (hM' : Strings M')
    (hv : (diff lh rh).Valid) (hl : Reverses same M M' nodes lh names)
    (hr : Reverses same M M' nodes rh names') (hnames : names.Disjoint names')
    (hnew : ∀ depth s x s' y s'', transformWith same (transform same depth) lh s = .ok (x, s') →
      transformWith same (transform same depth) rh s' = .ok (y, s'') →
      (x.isSome || y.isSome) = true → DiffReady same M' (x.getD lh) (y.getD rh)) :
    Reverses same M M' nodes (diff lh rh) (names ++ names') := by
  obtain ⟨N, hoperands⟩ := reverses_operands hl hr hnames
  refine ⟨N, fun depth hdepth s hs hkeys ↦ ?_⟩
  obtain ⟨x, s', y, s'', hx, hy, hdone, hvx, hvy, hdenote⟩ := hoperands depth hdepth s hs hkeys
  rw [transformWith, hx, ok_bind]
  simp only [hy, ok_bind]
  cases hchanged : x.isSome || y.isSome with
  | false =>
    refine ⟨none, s'', rfl, hdone, hv, fun hcons ↦ ?_⟩
    obtain ⟨hdx, hdy⟩ := hdenote hcons
    rw [(operands_kept hchanged).1] at hdx
    rw [(operands_kept hchanged).2] at hdy
    exact congrArg₂ (· \ ·) hdx hdy
  | true =>
    obtain ⟨r, hr, hd⟩ :=
      (makeDiff_iff hsame hM'.cc hvx hvy).2 (hnew depth s x s' y s'' hx hy hchanged)
    refine ⟨some r, s'', ?_, hdone, makeDiff_valid hvx hvy hr, fun hcons ↦ ?_⟩
    · simp only [if_true, hr, ok_bind]
      rfl
    · obtain ⟨hdx, hdy⟩ := hdenote hcons
      rw [Option.getD_some, hd, hdx, hdy, denote, reverse_sdiff]

theorem reverses_intersect (hsame : ∀ a b, same a b = true → a = b) (hM' : Strings M')
    (hv : (intersect lh rh).Valid) (hl : Reverses same M M' nodes lh names)
    (hr : Reverses same M M' nodes rh names') (hnames : names.Disjoint names')
    (hnew : ∀ depth s x s' y s'', transformWith same (transform same depth) lh s = .ok (x, s') →
      transformWith same (transform same depth) rh s' = .ok (y, s'') →
      (x.isSome || y.isSome) = true → IntersectReady same M' (x.getD lh) (y.getD rh)) :
    Reverses same M M' nodes (intersect lh rh) (names ++ names') := by
  obtain ⟨N, hoperands⟩ := reverses_operands hl hr hnames
  refine ⟨N, fun depth hdepth s hs hkeys ↦ ?_⟩
  obtain ⟨x, s', y, s'', hx, hy, hdone, hvx, hvy, hdenote⟩ := hoperands depth hdepth s hs hkeys
  rw [transformWith, hx, ok_bind]
  simp only [hy, ok_bind]
  cases hchanged : x.isSome || y.isSome with
  | false =>
    refine ⟨none, s'', rfl, hdone, hv, fun hcons ↦ ?_⟩
    obtain ⟨hdx, hdy⟩ := hdenote hcons
    rw [(operands_kept hchanged).1] at hdx
    rw [(operands_kept hchanged).2] at hdy
    exact congrArg₂ (· ⊓ ·) hdx hdy
  | true =>
    obtain ⟨r, hr, hd⟩ :=
      (makeIntersect_iff hsame hM'.cc hvx hvy).2 (hnew depth s x s' y s'' hx hy hchanged)
    refine ⟨some r, s'', ?_, hdone, makeIntersect_valid hvx hvy hr, fun hcons ↦ ?_⟩
    · simp only [if_true, hr, ok_bind]
      rfl
    · obtain ⟨hdx, hdy⟩ := hdenote hcons
      rw [Option.getD_some, hd, hdx, hdy, denote, reverse_inf]

/-- A capture of a new name is made once more, of the reversed expression. -/
theorem reverses_capture {node : ℕ} {cname : String} (hM : Consistent M nodes)
    (hnode : nodes[node]? = some (.capture cname e)) (h : Reverses same M M' nodes e names) :
    Reverses same M M' nodes (other node) (cname :: names) := by
  obtain ⟨N, he⟩ := h
  refine ⟨N + 1, fun depth hdepth s hs hkeys ↦ ?_⟩
  obtain ⟨d, rfl⟩ := Nat.exists_eq_succ_of_ne_zero (Nat.ne_of_gt (Nat.zero_lt_of_lt hdepth))
  obtain ⟨hcname, hnew⟩ := List.forall_mem_cons.1 hkeys
  obtain ⟨o, s', ht, hdone, hvo, hdenote⟩ := he d (Nat.le_of_succ_le_succ hdepth) s hs hnew
  have hchanged : transform same (d + 1) e s = .ok (o, s') := ht
  refine ⟨some (other s'.nodes.length), (s'.create (.capture
    ("\\" ++ toString (s.mCaptureMap.length + 1)) (o.getD e))).emplace cname s'.nodes.length, ?_,
    ⟨?_, fun n hn ↦ ?_⟩, .other _, fun hcons ↦ ?_⟩
  · rw [transformWith_other, transformNode, hs.getElem? hnode]
    simp only [transformCapture, lookup_eq_none hcname, capture]
    rw [hchanged, ok_bind]
    rfl
  · rw [nodes_emplace]
    exact hdone.nodes.trans ⟨_, rfl⟩
  · rw [List.mem_cons]
    obtain hn | hn := keys_emplace hn
    · exact (hdone.keys n hn).imp_right .inr
    · exact .inr (.inl hn)
  · rw [nodes_emplace] at hcons
    have hmade := hcons s'.nodes.length _ _ (List.getElem?_concat_length ..)
    have hold := hM node cname e hnode
    rw [Option.getD_some, denote, denote, hmade, hold]
    exact hdenote (hcons.of_extends ⟨_, rfl⟩)

/-- Every expression that is reversible is reversed. -/
theorem reverses_of_reversible (hsame : ∀ a b, same a b = true → a = b) (hMs : Strings M)
    (hMs' : Strings M') (hmirrors : Mirrors M M') (hM : Consistent M nodes)
    (h : Reversible same M M' nodes e names) (hv : e.Valid) :
    Reverses same M M' nodes e names := by
  induction h with
  | alt names _ hnames hnew ih =>
    have hvalt := hv
    cases hv with
    | alt hvs => exact reverses_alt hvalt (fun e he ↦ ih e he (hvs e he)) hnames hnew
  | any => exact reverses_none hv hmirrors.any fun _ _ ↦ rfl
  | assertion k s _ ih =>
    cases hv with
    | assertion _ _ ha => exact reverses_assertion hmirrors hMs' (ih ha)
  | capture hnode hvr _ ih => exact reverses_capture hM hnode (ih hvr)
  | cc c =>
    refine reverses_none hv ?_ fun _ _ ↦ rfl
    rw [denote, denote, hMs.cc, hMs'.cc, reverse_letters]
  | diff _ _ hnames hnew ihl ihr =>
    have hvdiff := hv
    cases hv with
    | diff hvl hvr => exact reverses_diff hsame hMs' hvdiff (ihl hvl) (ihr hvr) hnames hnew
  | intersect _ _ hnames hnew ihl ihr =>
    have hvinter := hv
    cases hv with
    | intersect hvl hvr =>
      exact reverses_intersect hsame hMs' hvinter (ihl hvl) (ihr hvr) hnames hnew
  | name n hd => exact reverses_none hv hd fun _ _ ↦ rfl
  | rep _ hnew ih =>
    have hvrep := hv
    cases hv with
    | rep hre _ => exact reverses_rep hvrep (ih hre) hnew
  | seq names _ hnames ih =>
    cases hv with
    | seq hvs => exact reverses_seq (fun e he ↦ ih e he (hvs e he)) hnames
  | start =>
    exact ⟨0, fun _ _ s _ _ ↦ ⟨some stop, s, rfl, .refl s _, .stop, fun _ ↦ hmirrors.start⟩⟩
  | stop =>
    exact ⟨0, fun _ _ s _ _ ↦ ⟨some start, s, rfl, .refl s _, .start, fun _ ↦ hmirrors.stop⟩⟩

end Spec

end ReverseTransformer

open ReverseTransformer

section Exact

variable {same : RE → RE → Bool} {M M' : Meaning (Language ℕ)} {nodes : List Node}
variable {re : RE} {names : List String}

theorem reverse_of_reversible (hsame : ∀ a b, same a b = true → a = b) (hMs : Strings M)
    (hMs' : Strings M') (hmirrors : Mirrors M M') (hM : Consistent M nodes) (hv : re.Valid)
    (h : Reversible same M M' nodes re names) :
    ∃ N, ∀ depth, N ≤ depth → ∃ r made, reverse same depth re nodes = .ok (r, made) ∧ r.Valid ∧
      (Consistent M' made → denote M' r = (denote M re).reverse) := by
  obtain ⟨N, hN⟩ := reverses_of_reversible hsame hMs hMs' hmirrors hM h hv
  refine ⟨N + 1, fun depth hdepth ↦ ?_⟩
  obtain ⟨d, rfl⟩ := Nat.exists_eq_succ_of_ne_zero (Nat.ne_of_gt (Nat.zero_lt_of_lt hdepth))
  obtain ⟨o, s', ht, -, hvo, hdenote⟩ := hN d (Nat.le_of_succ_le_succ hdepth) ⟨nodes, []⟩
    (.refl nodes) fun _ _ ↦ List.not_mem_nil
  have hchanged : ReverseTransformer.transform same (d + 1) re ⟨nodes, []⟩ = .ok (o, s') := ht
  refine ⟨o.getD re, s'.nodes, ?_, hvo, hdenote⟩
  rw [reverse, hchanged, ok_bind]
  rfl

end Exact

section Example

/-- The strings, where every capture is one of `b`. -/
def capturing : Meaning (Language ℕ) := { strings with other := fun _ ↦ letters {98} }

theorem strings_capturing : Strings capturing :=
  ⟨strings_strings.cc, strings_strings.negative_bot, strings_strings.positive_bot,
    strings_strings.positive_one, strings_strings.negative_one⟩

theorem mirrors_capturing : Mirrors capturing capturing where
  any := reverse_letters.symm
  assertion k s x := by
    cases s with
    | Positive => exact congrArg (· ⊓ x.reverse) Language.reverse_one.symm
    | Negative => exact congrArg (· \ x.reverse) Language.reverse_one.symm
  start := Language.reverse_one.symm
  stop := Language.reverse_one.symm

theorem denote_letter {M : Meaning (Language ℕ)} (hM : Strings M) {cp : ℕ}
    (hcp : cp ≤ unicodeMax) : denote M (letter cp) = letters {cp} := by
  rw [letter, denote, hM.cc, members_singleton hcp]

theorem consistent_capturing {nodes : List Node}
    (h : ∀ node ∈ nodes, ∃ n, node = .capture n (letter 98)) : Consistent capturing nodes := by
  intro node cname r hnode
  obtain ⟨n, hn⟩ := h _ (List.mem_of_getElem? hnode)
  rw [(Node.capture.inj hn).2, denote_letter strings_capturing (by decide)]
  rfl

/-- The names of the captures in a letter or a capture of one. -/
def captureNames : RE → List String
  | other _ => ["1"]
  | _ => []

end Example

end Parabix.RE
