import SqlGist.Tree.Build

/-!
# Relabelled Trees

Grouping looks at the kinds of tokens, and at the texts of marks and operators.
Where a token stands in the text, and what a name or a value says, makes no
difference to it. So changing the tokens of a statement one by one, within these
bounds, and then building is the same as building first and changing the leaves
of the tree.

A change of tokens that is admitted is called `Faithful`. Every test on nodes
that a pass makes is blind to one, and then so is the pass; each pass gets one
law, and the laws compose to the one for whole statements.

Nesting fails on unmatched parentheses, and names the place of one of them. That
place is changed as its token is, so the law for `nest` is about success alone,
or about changes that move no token.

## Main definitions

* `Token.Faithful`: A change of tokens that grouping does not see.
* `Node.relabel`, `Nested.relabel`, `Group.relabel`: A tree with its tokens
  changed.

## Theorems

* `groupCalls_relabel`, `groupNames_relabel`, `groupComparisons_relabel`,
  `listRun_relabel`, `groupLists_relabel`, `groupWhere_relabel`: A pass over
  changed nodes.
* `relabel_relabel`: Changing the tokens twice.
* `firstStatement?_map`: The first statement of changed tokens.
* `nestFrom_relabel`: Nesting changed tokens.
* `nest_relabel`: The same, failures put aside.
* `nest_relabel_of_span`: The same for tokens that keep their places.
* `rootNodes_relabel`: Grouping changed items.
-/

namespace SqlGist

namespace Token

/-- A change of tokens that keeps every kind, and the text of every mark and
    operator. -/
structure Faithful (f : Token → Token) : Prop where
  kind : ∀ t, (f t).kind = t.kind
  text : ∀ t, t.kind = .punctuation ∨ t.kind = .operator → (f t).text = t.text

variable {f : Token → Token}

namespace Faithful

theorem keyword? (hf : Faithful f) (t : Token) : (f t).keyword? = t.keyword? := by
  simp only [Token.keyword?, hf.kind]

theorem isWhitespace (hf : Faithful f) (t : Token) : (f t).isWhitespace = t.isWhitespace := by
  simp only [Token.isWhitespace, hf.kind]

theorem isName (hf : Faithful f) (t : Token) : (f t).isName = t.isName := by
  simp only [Token.isName, hf.kind]

theorem isValue (hf : Faithful f) (t : Token) : (f t).isValue = t.isValue := by
  simp only [Token.isValue, Token.isLiteral, hf.kind]

theorem isMark (hf : Faithful f) (t : Token) (mark : String) :
    (f t).isMark mark = t.isMark mark := by
  by_cases hkind : t.kind = .punctuation
  · simp only [Token.isMark, hf.kind, hf.text t (Or.inl hkind)]
  · simp only [Token.isMark, hf.kind, hkind, decide_false, Bool.false_and]

end Faithful

end Token

theorem cutTrailing_map {α β : Type} (g : α → β) (p : β → Bool) (as : List α) :
    cutTrailing p (as.map g) =
      ((cutTrailing (p ∘ g) as).1.map g, (cutTrailing (p ∘ g) as).2.map g) := by
  induction as with
  | nil => rfl
  | cons a as ih =>
      rw [List.map_cons, cutTrailing, cutTrailing, ih]
      -- Both sides look at the same run behind this element.
      rcases hcut : cutTrailing (p ∘ g) as with ⟨body, run⟩
      cases body with
      | nil =>
          simp only [List.map_nil, Function.comp_apply]
          split <;> rfl
      | cons b body => rfl

namespace Node

mutual

/-- The node with its tokens changed. -/
def relabel (f : Token → Token) : Node → Node
  | .leaf t => .leaf (f t)
  | .group shape children => .group shape (relabelAll f children)

/-- The nodes of a list with their tokens changed. -/
def relabelAll (f : Token → Token) : List Node → List Node
  | [] => []
  | n :: ns => n.relabel f :: relabelAll f ns

end

theorem relabelAll_eq_map (f : Token → Token) (ns : List Node) :
    relabelAll f ns = ns.map (relabel f) := by
  induction ns with
  | nil => rfl
  | cons n ns ih => rw [relabelAll, ih, List.map_cons]

theorem relabel_group (f : Token → Token) (shape : Shape) (children : List Node) :
    relabel f (.group shape children) = .group shape (children.map (relabel f)) := by
  rw [relabel, relabelAll_eq_map]

mutual

theorem relabel_relabel (f g : Token → Token) :
    (n : Node) → (n.relabel f).relabel g = n.relabel (g ∘ f)
  | .leaf _ => rfl
  | .group shape children => by
      rw [relabel, relabel, relabel, relabelAll_relabelAll f g children]

theorem relabelAll_relabelAll (f g : Token → Token) :
    (ns : List Node) → relabelAll g (relabelAll f ns) = relabelAll (g ∘ f) ns
  | [] => rfl
  | n :: ns => by
      rw [relabelAll, relabelAll, relabelAll, relabel_relabel f g n, relabelAll_relabelAll f g ns]

end

variable {f : Token → Token}

theorem shape?_relabel (n : Node) : (n.relabel f).shape? = n.shape? := by
  cases n <;> rfl

theorem isGroup_relabel (n : Node) (shape : Shape) :
    (n.relabel f).isGroup shape = n.isGroup shape := by
  rw [isGroup, isGroup, shape?_relabel]

theorem leaf?_relabel (n : Node) : (n.relabel f).leaf? = n.leaf?.map f := by
  cases n <;> rfl

section

variable (hf : Token.Faithful f)

include hf

theorem keyword?_relabel (n : Node) : (n.relabel f).keyword? = n.keyword? := by
  cases n with
  | leaf t => exact hf.keyword? t
  | group => rfl

theorem isWhitespace_relabel (n : Node) : (n.relabel f).isWhitespace = n.isWhitespace := by
  cases n with
  | leaf t => exact hf.isWhitespace t
  | group => rfl

theorem isName_relabel (n : Node) : (n.relabel f).isName = n.isName := by
  cases n with
  | leaf t => exact hf.isName t
  | group => rfl

theorem isMark_relabel (n : Node) (mark : String) : (n.relabel f).isMark mark = n.isMark mark := by
  cases n with
  | leaf t => exact hf.isMark t mark
  | group => rfl

theorem isOperand_relabel (n : Node) : (n.relabel f).isOperand = n.isOperand := by
  cases n with
  | leaf t => exact hf.isValue t
  | group => rfl

theorem isComparisonOperator_relabel (n : Node) :
    (n.relabel f).isComparisonOperator = n.isComparisonOperator := by
  cases n with
  | leaf t =>
      by_cases hkind : t.kind = .operator
      · simp only [isComparisonOperator, relabel, leaf?, Option.any_some, hf.kind,
          hf.text t (Or.inr hkind)]
      · simp only [isComparisonOperator, relabel, leaf?, Option.any_some, hf.kind, hkind,
          decide_false, Bool.false_and]
  | group => rfl

theorem endsCondition_relabel (n : Node) : (n.relabel f).endsCondition = n.endsCondition := by
  rw [endsCondition, endsCondition, keyword?_relabel hf]

theorem opensProjection_relabel (n : Node) :
    (n.relabel f).opensProjection = n.opensProjection := by
  rw [opensProjection, opensProjection, keyword?_relabel hf]

theorem groupCalls_relabel (ns : List Node) :
    groupCalls (ns.map (relabel f)) = (groupCalls ns).map (relabel f) := by
  fun_induction groupCalls ns with
  | case1 => rfl
  | case2 => rfl
  | case3 n p ns hcall ih =>
      rw [List.map_cons, List.map_cons, groupCalls, isName_relabel hf, isGroup_relabel,
        if_pos hcall, ih, List.map_cons, relabel_group]
      rfl
  | case4 n p ns hcall ih =>
      rw [List.map_cons, List.map_cons, groupCalls, isName_relabel hf, isGroup_relabel,
        if_neg hcall, ← List.map_cons, ih, List.map_cons]

theorem groupNames_relabel (ns : List Node) :
    groupNames (ns.map (relabel f)) = (groupNames ns).map (relabel f) := by
  simp only [groupNames, List.map_map]
  refine List.map_congr_left fun n _ => ?_
  simp only [Function.comp_apply, isName_relabel hf]
  split
  · rw [nameRef, nameRef, relabel_group]
    rfl
  · rfl

theorem nextVisible?_relabel (ns : List Node) :
    nextVisible? (ns.map (relabel f)) = (nextVisible? ns).map fun parts =>
      (parts.1.map (relabel f), parts.2.1.relabel f, parts.2.2.map (relabel f)) := by
  have hblank : isWhitespace ∘ relabel f = isWhitespace := funext (isWhitespace_relabel hf)
  rw [nextVisible?, nextVisible?, List.dropWhile_map, List.takeWhile_map, hblank]
  cases ns.dropWhile isWhitespace <;> rfl

theorem comparisonRest?_relabel (ns : List Node) :
    comparisonRest? (ns.map (relabel f)) = (comparisonRest? ns).map fun parts =>
      (parts.1.map (relabel f), parts.2.map (relabel f)) := by
  rw [comparisonRest?, comparisonRest?, nextVisible?_relabel hf]
  cases nextVisible? ns with
  | none => rfl
  | some parts =>
      rcases parts with ⟨gap, operator, rest⟩
      simp only [Option.map_some, Option.bind_some, isComparisonOperator_relabel hf,
        nextVisible?_relabel hf]
      split
      · cases nextVisible? rest with
        | none => rfl
        | some parts =>
            rcases parts with ⟨gap', right, rest'⟩
            simp only [Option.map_some, Option.bind_some, isOperand_relabel hf]
            split
            · simp only [Option.map_some, List.map_append, List.map_cons, List.map_nil]
            · rfl
      · rfl

theorem groupComparisons_relabel (ns : List Node) :
    groupComparisons (ns.map (relabel f)) = (groupComparisons ns).map (relabel f) := by
  fun_induction groupComparisons ns with
  | case1 => rw [List.map_nil, groupComparisons]
  | case2 n ns taken rest htaken ih =>
      -- The changed node takes the changed nodes.
      have htaken' : (if (n.relabel f).isOperand then comparisonRest? (ns.map (relabel f))
          else none) = some (taken.map (relabel f), rest.map (relabel f)) := by
        rw [isOperand_relabel hf, comparisonRest?_relabel hf]
        split at htaken
        · rename_i hleft
          rw [if_pos hleft, htaken, Option.map_some]
        · simp only [reduceCtorEq] at htaken
      rw [List.map_cons, groupComparisons, htaken', List.map_cons, ← ih, relabel_group,
        List.map_cons]
  | case3 n ns hnone ih =>
      have hnone' : (if (n.relabel f).isOperand then comparisonRest? (ns.map (relabel f))
          else none) = none := by
        rw [isOperand_relabel hf, comparisonRest?_relabel hf]
        split at hnone
        · rename_i hleft
          rw [if_pos hleft, hnone, Option.map_none]
        · rename_i hleft
          rw [if_neg hleft]
      rw [List.map_cons, groupComparisons, hnone', List.map_cons, ih]

theorem wrapList_relabel (ns : List Node) :
    wrapList (ns.map (relabel f)) = (wrapList ns).map (relabel f) := by
  have hblank : isWhitespace ∘ relabel f = isWhitespace := funext (isWhitespace_relabel hf)
  rw [wrapList, wrapList, List.dropWhile_map, List.takeWhile_map, cutTrailing_map, hblank]
  rcases cutTrailing isWhitespace (ns.dropWhile isWhitespace) with ⟨items, blanks⟩
  cases items with
  | nil => rfl
  | cons item items =>
      simp only [List.map_cons, List.map_append, relabel_group]

theorem listRun_relabel (forced : Bool) (run : List Node) :
    listRun forced (run.map (relabel f)) = (listRun forced run).map (relabel f) := by
  have hany : (run.map (relabel f)).any (fun n => n.isMark ",") =
      run.any fun n => n.isMark "," := by
    rw [List.any_map]
    exact congrArg run.any (funext fun n => isMark_relabel hf n ",")
  rw [listRun, listRun, hany]
  split
  · exact wrapList_relabel hf run
  · rfl

theorem sections_relabel (ns : List Node) :
    sections (ns.map (relabel f)) =
      ((sections ns).1.map (relabel f),
        (sections ns).2.map fun part => (part.1.relabel f, part.2.map (relabel f))) := by
  induction ns with
  | nil => rfl
  | cons n ns ih =>
      simp only [List.map_cons, sections, keyword?_relabel hf, ih]
      split <;> rfl

theorem groupLists_relabel (ns : List Node) :
    groupLists (ns.map (relabel f)) = (groupLists ns).map (relabel f) := by
  simp only [groupLists, sections_relabel hf, listRun_relabel hf, List.map_append,
    List.flatMap_map, List.map_flatMap, List.map_cons, opensProjection_relabel hf]

theorem groupWhere_relabel (ns : List Node) :
    groupWhere (ns.map (relabel f)) = (groupWhere ns).map (relabel f) := by
  have hblank : isWhitespace ∘ relabel f = isWhitespace := funext (isWhitespace_relabel hf)
  have hwhere : (fun n => !decide (n.keyword? = some Keyword.whereKw)) ∘ relabel f =
      fun n => !decide (n.keyword? = some Keyword.whereKw) := by
    funext n
    simp only [Function.comp_apply, keyword?_relabel hf]
  have hend : (fun n => !n.endsCondition) ∘ relabel f = fun n => !n.endsCondition := by
    funext n
    simp only [Function.comp_apply, endsCondition_relabel hf]
  simp only [groupWhere]
  rw [List.dropWhile_map, List.takeWhile_map, hwhere]
  cases ns.dropWhile fun n => !decide (n.keyword? = some Keyword.whereKw) with
  | nil => rfl
  | cons clause rest =>
      simp only [List.map_cons, List.dropWhile_map, List.takeWhile_map, hend, cutTrailing_map,
        hblank, List.map_append, relabel_group]

theorem groupInner_relabel (forced : Bool) (ns : List Node) :
    groupInner forced (ns.map (relabel f)) = (groupInner forced ns).map (relabel f) := by
  rw [groupInner, groupInner, groupCalls_relabel hf, groupNames_relabel hf,
    groupComparisons_relabel hf, listRun_relabel hf]

theorem groupRoot_relabel (table : Bool) (ns : List Node) :
    groupRoot table (ns.map (relabel f)) = (groupRoot table ns).map (relabel f) := by
  have hcalled : (if table then ns.map (relabel f) else groupCalls (ns.map (relabel f))) =
      (if table then ns else groupCalls ns).map (relabel f) := by
    split
    · rfl
    · exact groupCalls_relabel hf ns
  simp only [groupRoot]
  rw [hcalled, groupNames_relabel hf, groupComparisons_relabel hf, groupLists_relabel hf,
    groupWhere_relabel hf]

end

end Node

section

variable {f : Token → Token} (hf : Token.Faithful f)

include hf

theorem depthAfter_map (depth : Nat) (t : Token) : depthAfter depth (f t) = depthAfter depth t := by
  rw [depthAfter, depthAfter, hf.isMark, hf.isMark]

theorem splitStatements_map (depth : Nat) (ts : List Token) :
    splitStatements depth (ts.map f) = (splitStatements depth ts).map (List.map f) := by
  induction ts generalizing depth with
  | nil => rfl
  | cons t ts ih =>
      rw [List.map_cons, splitStatements, splitStatements, hf.isMark, depthAfter_map hf, ih, ih]
      split
      · rfl
      · cases splitStatements (depthAfter depth t) ts <;> rfl

theorem firstStatement?_map (ts : List Token) :
    firstStatement? (ts.map f) = (firstStatement? ts).map (List.map f) := by
  have hblank : (fun t : Token => !t.isWhitespace) ∘ f = fun t => !t.isWhitespace :=
    funext fun t => congrArg not (hf.isWhitespace t)
  rw [firstStatement?, firstStatement?, splitStatements_map hf, List.find?_map]
  refine congrArg (fun p => ((splitStatements 0 ts).find? p).map (List.map f)) (funext fun s => ?_)
  rw [Function.comp_apply, List.any_map, hblank]

end

namespace Nested

mutual

/-- The item with its tokens changed. -/
def relabel (f : Token → Token) : Nested → Nested
  | .token t => .token (f t)
  | .parens opening inner closing => .parens (f opening) (relabelAll f inner) (f closing)

/-- The items of a list with their tokens changed. -/
def relabelAll (f : Token → Token) : List Nested → List Nested
  | [] => []
  | item :: items => item.relabel f :: relabelAll f items

end

theorem relabelAll_eq_map (f : Token → Token) (items : List Nested) :
    relabelAll f items = items.map (relabel f) := by
  induction items with
  | nil => rfl
  | cons item items ih => rw [relabelAll, ih, List.map_cons]

variable {f : Token → Token}

/-- Nesting changed tokens succeeds with the changed items, or fails for the same
    reason at the changed token. -/
theorem nestFrom_relabel (hf : Token.Faithful f) (stack : List (Token × List Nested))
    (current : List Nested) (ts : List Token) :
    (∃ items, nestFrom stack current ts = .ok items ∧
      nestFrom (stack.map fun frame => (f frame.1, frame.2.map (relabel f)))
        (current.map (relabel f)) (ts.map f) = .ok (items.map (relabel f))) ∨
    ∃ cause t, nestFrom stack current ts = .error ⟨cause, t.span⟩ ∧
      nestFrom (stack.map fun frame => (f frame.1, frame.2.map (relabel f)))
        (current.map (relabel f)) (ts.map f) = .error ⟨cause, (f t).span⟩ := by
  fun_induction nestFrom stack current ts with
  | case1 current =>
      exact Or.inl ⟨_, rfl, by rw [List.map_nil, List.map_nil, nestFrom, List.map_reverse]⟩
  | case2 current opening before outer => exact Or.inr ⟨_, opening, rfl, rfl⟩
  | case3 stack current t ts hopen ih =>
      rwa [List.map_cons, nestFrom_open (by rwa [hf.isMark])]
  | case4 current t ts hopen hclose =>
      -- Nothing is open, so both fail.
      refine Or.inr ⟨_, t, rfl, ?_⟩
      rw [List.map_cons, List.map_nil, nestFrom, if_neg (by rwa [hf.isMark]),
        if_pos (by rwa [hf.isMark])]
  | case5 current t ts hopen hclose opening before outer ih =>
      rw [List.map_cons, List.map_cons,
        nestFrom_close (by rw [hf.isMark, Bool.eq_false_iff.2 hopen]) (by rwa [hf.isMark])]
      simpa only [List.map_cons, relabel, relabelAll_eq_map, List.map_reverse] using ih
  | case6 stack current t ts hopen hclose ih =>
      rwa [List.map_cons, nestFrom_token (by rw [hf.isMark, Bool.eq_false_iff.2 hopen])
        (by rw [hf.isMark, Bool.eq_false_iff.2 hclose])]

theorem nest_relabel (hf : Token.Faithful f) (ts : List Token) :
    (nest (ts.map f)).toOption = (nest ts).toOption.map (List.map (relabel f)) := by
  rcases nestFrom_relabel hf [] [] ts with ⟨items, hok, hok'⟩ | ⟨cause, t, herror, herror'⟩
  · rw [nest, nest, hok]
    exact congrArg Except.toOption hok'
  · rw [nest, nest, herror]
    exact congrArg Except.toOption herror'

/-- Tokens that were changed but not moved fail to nest in the same place. -/
theorem nest_relabel_of_span (hf : Token.Faithful f) (hspan : ∀ t, (f t).span = t.span)
    (ts : List Token) : nest (ts.map f) = (nest ts).map (List.map (relabel f)) := by
  rcases nestFrom_relabel hf [] [] ts with ⟨items, hok, hok'⟩ | ⟨cause, t, herror, herror'⟩
  · rw [nest, nest, hok]
    exact hok'
  · rw [hspan] at herror'
    rw [nest, nest, herror]
    exact herror'

theorem keyword?_relabel (hf : Token.Faithful f) (item : Nested) :
    (item.relabel f).keyword? = item.keyword? := by
  cases item with
  | token t => exact hf.keyword? t
  | parens => rfl

mutual

theorem node_relabel (hf : Token.Faithful f) (forced : Bool) :
    (item : Nested) → (item.relabel f).node forced = (item.node forced).relabel f
  | .token _ => rfl
  | .parens opening inner closing => by
      rw [relabel, node, node, Node.relabel_group, nodes_relabel hf inner,
        Node.groupInner_relabel hf]
      simp only [List.map_cons, List.map_append, List.map_nil, Node.relabel]

theorem nodes_relabel (hf : Token.Faithful f) :
    (items : List Nested) → nodes (relabelAll f items) = (nodes items).map (Node.relabel f)
  | [] => by rw [relabelAll, nodes, List.map_nil]
  | item :: items => by
      rw [relabelAll, nodes, nodes, node_relabel hf false item, nodes_relabel hf items,
        List.map_cons]

end

theorem outerNodes_relabel (hf : Token.Faithful f) (afterValues : Bool) (items : List Nested) :
    outerNodes afterValues (items.map (relabel f)) =
      (outerNodes afterValues items).map (Node.relabel f) := by
  induction items generalizing afterValues with
  | nil => rfl
  | cons item items ih =>
      rw [List.map_cons, outerNodes, outerNodes, keyword?_relabel hf, node_relabel hf, ih,
        List.map_cons]

end Nested

theorem definesTable_relabel {f : Token → Token} (hf : Token.Faithful f) (items : List Nested) :
    definesTable (items.map (Nested.relabel f)) = definesTable items := by
  have hkeyword : Nested.keyword? ∘ Nested.relabel f = Nested.keyword? :=
    funext (Nested.keyword?_relabel hf)
  simp only [definesTable, List.filterMap_map, hkeyword]

theorem rootNodes_relabel {f : Token → Token} (hf : Token.Faithful f) (items : List Nested) :
    rootNodes (items.map (Nested.relabel f)) = (rootNodes items).map (Node.relabel f) := by
  rw [rootNodes, rootNodes, definesTable_relabel hf, Nested.outerNodes_relabel hf,
    Node.groupRoot_relabel hf]

/-- The tree with its tokens changed. -/
def Group.relabel (f : Token → Token) (g : Group) : Group :=
  ⟨g.shape, g.children.map (Node.relabel f)⟩

theorem Group.relabel_relabel (f g : Token → Token) (r : Group) :
    (r.relabel f).relabel g = r.relabel (g ∘ f) := by
  simp only [relabel, List.map_map, mk.injEq, true_and]
  exact List.map_congr_left fun n _ => Node.relabel_relabel f g n

end SqlGist
