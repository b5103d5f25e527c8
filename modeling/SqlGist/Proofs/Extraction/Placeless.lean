import SqlGist.Classify
import SqlGist.Proofs.FirstStatement
import SqlGist.Proofs.Tree.Grammar
import SqlGist.Proofs.Tree.Relabel

/-!
# Extraction Does Not See Places

What is read off a tree are kinds and texts of tokens, and where in the tree
they stand. Where they stand in the text is for errors alone. So a change of
tokens that keeps kinds and texts, and moves spans as it likes, changes nothing
that a command finds.

A change of this kind is `Verbatim`. It is faithful, so it commutes with
building, and here it is carried through everything behind: the leaves with
their paths, the role of a leaf, the constraints and their columns, the filter,
and at last the entity.

## Main definitions

* `Token.Verbatim`: A change of tokens that keeps kinds and texts.
* `Frame.relabel`, `Leaf.relabel`: A path and a leaf with their tokens changed.

## Theorems

* `leaves_relabel`: The leaves of a changed tree.
* `isColumn_relabel`, `columnType?_relabel`, `isWritten_relabel`: The role of a
  leaf stays.
* `owned_relabel`, `gather_relabel`, `filterOf_relabel`: So do constraints,
  columns and the filter.
* `classifyTree_relabel`: A changed tree is about the same entity.
* `classify_of_tokens`: The entity of a text, from its tokens without places.
-/

namespace SqlGist

namespace Token

/-- A change of tokens that keeps every kind and every text. -/
structure Verbatim (f : Token → Token) : Prop where
  kind : ∀ t, (f t).kind = t.kind
  text : ∀ t, (f t).text = t.text

theorem verbatim_unplaced : Verbatim unplaced :=
  ⟨fun _ => rfl, fun _ => rfl⟩

variable {f : Token → Token}

theorem Verbatim.faithful (hf : Verbatim f) : Faithful f :=
  ⟨hf.kind, fun t _ => hf.text t⟩

theorem Verbatim.value (hf : Verbatim f) (t : Token) : (f t).value = t.value := by
  simp only [Token.value, nameQuote?, hf.kind, hf.text]

theorem Verbatim.normalized (hf : Verbatim f) (t : Token) : (f t).normalized = t.normalized := by
  simp only [Token.normalized, hf.kind, hf.text]

end Token

variable {f : Token → Token}

/-- The frame with the tokens of its group changed. -/
def Frame.relabel (f : Token → Token) (fr : Frame) : Frame :=
  ⟨fr.group.relabel f, fr.index⟩

/-- The leaf with its token and those of its path changed. -/
def Leaf.relabel (f : Token → Token) (l : Leaf) : Leaf :=
  ⟨f l.token, l.path.map (Frame.relabel f)⟩

namespace Node

mutual

theorem text_relabel (hf : Token.Verbatim f) : (n : Node) → (n.relabel f).text = n.text
  | .leaf t => hf.text t
  | .group _ children => by rw [relabel, text, text, textOf_relabelAll hf children]

theorem textOf_relabelAll (hf : Token.Verbatim f) :
    (ns : List Node) → textOf (relabelAll f ns) = textOf ns
  | [] => rfl
  | n :: ns => by rw [relabelAll, textOf, textOf, text_relabel hf n, textOf_relabelAll hf ns]

end

theorem value_relabel (hf : Token.Verbatim f) (n : Node) : (n.relabel f).value = n.value := by
  cases n with
  | leaf t => exact hf.value t
  | group shape children =>
      have htext := text_relabel hf (.group shape children)
      rw [relabel_group] at htext ⊢
      cases shape with
      | nameRef =>
          -- The first leaf is changed as all others are, and denotes the same.
          have hfirst : (children.map (relabel f)).findSome? leaf? =
              (children.findSome? leaf?).map f := by
            rw [List.findSome?_map, List.map_findSome?]
            exact congrArg (List.findSome? · children) (funext leaf?_relabel)
          simp only [value, hfirst]
          cases children.findSome? leaf? with
          | none => exact htext
          | some t => exact hf.value t
      | _ => exact htext

mutual

theorem leaves_relabel (path : List Frame) : (n : Node) →
    (n.relabel f).leaves (path.map (Frame.relabel f)) = (n.leaves path).map (Leaf.relabel f)
  | .leaf t => rfl
  | .group shape children => by
      rw [relabel, leaves, leaves, ← leavesFrom_relabelAll ⟨shape, children⟩ path 0 children,
        Group.relabel, relabelAll_eq_map]

theorem leavesFrom_relabelAll (g : Group) (path : List Frame) (index : Nat) : (ns : List Node) →
    leavesFrom (g.relabel f) (path.map (Frame.relabel f)) index (relabelAll f ns) =
      (leavesFrom g path index ns).map (Leaf.relabel f)
  | [] => rfl
  | n :: ns => by
      rw [relabelAll, leavesFrom, leavesFrom, List.map_append,
        ← leaves_relabel (⟨g, index⟩ :: path) n, ← leavesFrom_relabelAll g path (index + 1) ns]
      rfl

end

end Node

theorem Group.toNode_relabel (g : Group) : (g.relabel f).toNode = g.toNode.relabel f := by
  rw [toNode, toNode, Node.relabel_group]
  rfl

theorem Group.leaves_relabel (g : Group) :
    (g.relabel f).leaves = g.leaves.map (Leaf.relabel f) := by
  rw [leaves, leaves, toNode_relabel]
  exact Node.leaves_relabel [] g.toNode

theorem Group.text_relabel (hf : Token.Verbatim f) (g : Group) :
    (g.relabel f).text = g.text := by
  rw [text, text, toNode_relabel, Node.text_relabel hf]

theorem Node.isVisible_relabel (hf : Token.Faithful f) :
    (fun n => !isWhitespace n) ∘ relabel f = fun n => !isWhitespace n := by
  funext n
  simp only [Function.comp_apply, isWhitespace_relabel hf]

theorem Node.isType_relabel (hf : Token.Faithful f) (n : Node) :
    (n.relabel f).isType = n.isType := by
  rw [isType, isType, isGroup_relabel, leaf?_relabel, Option.any_map]
  congr 2
  funext t
  simp only [hf.kind]

namespace Frame

theorem next?_relabel (hf : Token.Faithful f) (fr : Frame) :
    (fr.relabel f).next? = fr.next?.map (Node.relabel f) := by
  simp only [next?, Group.nextSibling?, relabel, Group.relabel, ← List.map_drop, List.find?_map,
    Node.isVisible_relabel hf]

theorem prev?_relabel (hf : Token.Faithful f) (fr : Frame) :
    (fr.relabel f).prev? = fr.prev?.map (Node.relabel f) := by
  simp only [prev?, Group.prevSibling?, relabel, Group.relabel, ← List.map_take,
    ← List.map_reverse, List.find?_map, Node.isVisible_relabel hf]

theorem holdsColumn_relabel (hf : Token.Faithful f) (fr : Frame) :
    (fr.relabel f).holdsColumn = fr.holdsColumn := by
  have hshape : (fr.relabel f).shape = fr.shape := rfl
  simp only [holdsColumn, prev?_relabel hf, next?_relabel hf, hshape, Option.any_map,
    Node.keyword?_relabel hf, Node.isMark_relabel hf, Node.isType_relabel hf]

end Frame

namespace Leaf

theorem ancestor?_relabel (l : Leaf) (distance : Nat) :
    (l.relabel f).ancestor? distance = (l.ancestor? distance).map (Frame.relabel f) :=
  List.getElem?_map

theorem hasAncestor_relabel (l : Leaf) (shape : Shape) :
    (l.relabel f).hasAncestor shape = l.hasAncestor shape := by
  rw [hasAncestor, hasAncestor, relabel, List.any_map]
  rfl

theorem ancestorsAre_relabel (l : Leaf) (shapes : List Shape) :
    (l.relabel f).ancestorsAre shapes = l.ancestorsAre shapes := by
  rw [ancestorsAre, ancestorsAre, relabel, List.map_map]
  rfl

theorem address_relabel (l : Leaf) : (l.relabel f).address = l.address := by
  rw [address, address, relabel, List.map_map]
  rfl

theorem isWithin_relabel (l : Leaf) (address : List Nat) :
    (l.relabel f).isWithin address = l.isWithin address := by
  rw [isWithin, isWithin, address_relabel]

theorem inWhere_relabel (l : Leaf) : (l.relabel f).inWhere = l.inWhere :=
  hasAncestor_relabel l _

theorem isWhitespace_relabel (hf : Token.Faithful f) (l : Leaf) :
    (l.relabel f).isWhitespace = l.isWhitespace :=
  hf.isWhitespace l.token

theorem keyword?_relabel (hf : Token.Faithful f) (l : Leaf) :
    (l.relabel f).keyword? = l.keyword? :=
  hf.keyword? l.token

theorem value_relabel (hf : Token.Verbatim f) (l : Leaf) : (l.relabel f).value = l.value :=
  hf.value l.token

theorem isTarget_relabel (hf : Token.Faithful f) (l : Leaf) :
    (l.relabel f).isTarget = l.isTarget := by
  have hname : (l.relabel f).token.isName = l.token.isName := hf.isName l.token
  simp only [isTarget, hname, ancestorsAre_relabel]

theorem isColumn_relabel (hf : Token.Faithful f) (l : Leaf) :
    (l.relabel f).isColumn = l.isColumn := by
  have hname : (l.relabel f).token.isName = l.token.isName := hf.isName l.token
  simp only [isColumn, hname, inWhere_relabel, ancestorsAre_relabel, ancestor?_relabel,
    Option.any_map, Frame.holdsColumn_relabel hf]

theorem isCallName_relabel (hf : Token.Faithful f) (l : Leaf) :
    (l.relabel f).isCallName = l.isCallName := by
  have hname : (l.relabel f).token.isName = l.token.isName := hf.isName l.token
  simp only [isCallName, hname, ancestorsAre_relabel]

theorem isType_relabel (hf : Token.Faithful f) (l : Leaf) : (l.relabel f).isType = l.isType := by
  have hkind : (l.relabel f).token.kind = l.token.kind := hf.kind l.token
  simp only [isType, hkind, isCallName_relabel hf]

theorem columnType?_relabel (hf : Token.Verbatim f) (l : Leaf) :
    (l.relabel f).columnType? = l.columnType? := by
  have hkind : (l.relabel f).token.kind = l.token.kind := hf.kind l.token
  have htext : (l.relabel f).token.text = l.token.text := hf.text l.token
  -- The text of the call around the name is what its tokens say.
  have hcall : (fun fr => ColumnType.ofCall? fr.group.text) ∘ Frame.relabel f =
      fun fr => ColumnType.ofCall? fr.group.text := by
    funext fr
    simp only [Function.comp_apply, Frame.relabel, Group.text_relabel hf]
  simp only [columnType?, hkind, htext, isCallName_relabel hf.faithful, ancestor?_relabel,
    Option.bind_map, hcall]

theorem isBehind_relabel (hf : Token.Faithful f) (l : Leaf) (k : Keyword) :
    (l.relabel f).isBehind k = l.isBehind k := by
  have hkeyword : (fun n => decide (Node.keyword? n = some k)) ∘ Node.relabel f =
      fun n => decide (n.keyword? = some k) := by
    funext n
    simp only [Function.comp_apply, Node.keyword?_relabel hf]
  simp only [isBehind, root?, relabel, List.getLast?_map, Option.any_map]
  congr 1
  funext fr
  simp only [Frame.relabel, Group.relabel, ← List.map_take, List.any_map, hkeyword]

theorem isWritten_relabel (hf : Token.Faithful f) (l : Leaf) (k : Keyword) :
    (l.relabel f).isWritten k = l.isWritten k := by
  have hvalue : (l.relabel f).token.isValue = l.token.isValue := hf.isValue l.token
  simp only [isWritten, hvalue, inWhere_relabel, hasAncestor_relabel, isBehind_relabel hf]

theorem writeAction_relabel (l : Leaf) : (l.relabel f).writeAction = l.writeAction := by
  rw [writeAction, writeAction, hasAncestor_relabel]

theorem constraintKeyword?_relabel (hf : Token.Faithful f) (l : Leaf) :
    (l.relabel f).constraintKeyword? = l.constraintKeyword? := by
  rw [constraintKeyword?, constraintKeyword?, inWhere_relabel, keyword?_relabel hf]

theorem isColumn_comp_relabel (hf : Token.Faithful f) : isColumn ∘ relabel f = isColumn :=
  funext (isColumn_relabel hf)

theorem value_comp_relabel (hf : Token.Verbatim f) : value ∘ relabel f = value :=
  funext (value_relabel hf)

end Leaf

section Ownership

variable (hf : Token.Verbatim f)

include hf

theorem skipBlanks_relabel (leaves : List Leaf) :
    skipBlanks (leaves.map (Leaf.relabel f)) = (skipBlanks leaves).map (Leaf.relabel f) := by
  have hblank : Leaf.isWhitespace ∘ Leaf.relabel f = Leaf.isWhitespace :=
    funext (Leaf.isWhitespace_relabel hf.faithful)
  rw [skipBlanks, skipBlanks, List.dropWhile_map, hblank]

theorem constraintAt_relabel (k : Keyword) (after : List Leaf) :
    constraintAt k (after.map (Leaf.relabel f)) = constraintAt k after := by
  cases k with
  | default =>
      simp only [constraintAt, skipBlanks_relabel hf]
      cases skipBlanks after with
      | nil => rfl
      | cons l rest => simp only [List.map_cons, Leaf.value_relabel hf]
  | _ => rfl

theorem skipKey_relabel (after : List Leaf) :
    skipKey (after.map (Leaf.relabel f)) = (skipKey after).map (Leaf.relabel f) := by
  simp only [skipKey, skipBlanks_relabel hf]
  cases skipBlanks after with
  | nil => rfl
  | cons l rest =>
      simp only [List.map_cons, Leaf.keyword?_relabel hf.faithful]
      split
      · exact skipBlanks_relabel hf rest
      · rfl

theorem listedColumns?_relabel (after : List Leaf) :
    listedColumns? (after.map (Leaf.relabel f)) = listedColumns? after := by
  simp only [listedColumns?, skipKey_relabel hf]
  cases skipKey after with
  | nil => rfl
  | cons l rest =>
      have hmark : (l.relabel f).token.isMark "(" = l.token.isMark "(" :=
        hf.faithful.isMark l.token "("
      have hwithin : (fun m => Leaf.isWithin m l.address.dropLast) ∘ Leaf.relabel f =
          fun m => m.isWithin l.address.dropLast :=
        funext fun m => Leaf.isWithin_relabel m _
      simp only [List.map_cons, hmark, Leaf.ancestorsAre_relabel, Leaf.address_relabel,
        List.takeWhile_map, hwithin, List.filter_map, Leaf.isColumn_comp_relabel hf.faithful,
        List.map_map, Leaf.value_comp_relabel hf]

theorem ownersAt_relabel (k : Keyword) (before after : List Leaf) :
    ownersAt k (before.map (Leaf.relabel f)) (after.map (Leaf.relabel f)) =
      ownersAt k before after := by
  have hnearest : nearestColumn k (before.map (Leaf.relabel f)) = nearestColumn k before := by
    simp only [nearestColumn, List.find?_map, Leaf.isColumn_comp_relabel hf.faithful]
    cases before.find? Leaf.isColumn with
    | none => rfl
    | some l => simp only [Option.map_some, Leaf.value_relabel hf]
  simp only [ownersAt, listedColumns?_relabel hf, hnearest]

theorem ownedAt_relabel (before : List Leaf) (l : Leaf) (after : List Leaf) :
    ownedAt (before.map (Leaf.relabel f)) (l.relabel f) (after.map (Leaf.relabel f)) =
      ownedAt before l after := by
  simp only [ownedAt, Leaf.constraintKeyword?_relabel hf.faithful, constraintAt_relabel hf,
    ownersAt_relabel hf]

theorem ownedFrom_relabel (before leaves : List Leaf) :
    ownedFrom (before.map (Leaf.relabel f)) (leaves.map (Leaf.relabel f)) =
      ownedFrom before leaves := by
  induction leaves generalizing before with
  | nil => rfl
  | cons l after ih =>
      have hrest := ih (l :: before)
      rw [List.map_cons] at hrest
      simp only [List.map_cons, ownedFrom, ownedAt_relabel hf, hrest]

theorem owned_relabel (leaves : List Leaf) :
    owned (leaves.map (Leaf.relabel f)) = owned leaves := by
  have hkeyword : Leaf.constraintKeyword? ∘ Leaf.relabel f = Leaf.constraintKeyword? :=
    funext (Leaf.constraintKeyword?_relabel hf.faithful)
  have hall := ownedFrom_relabel hf [] leaves
  rw [List.map_nil] at hall
  simp only [owned, List.filterMap_map, hkeyword, hall]

theorem gatherFrom_relabel (definitions : Bool) (action : Action) (g : Gathered)
    (leaves : List Leaf) :
    gatherFrom definitions action g (leaves.map (Leaf.relabel f)) =
      gatherFrom definitions action g leaves := by
  induction leaves generalizing g with
  | nil => rfl
  | cons l leaves ih =>
      simp only [List.map_cons, gatherFrom, Gathered.read, Leaf.isColumn_relabel hf.faithful,
        Leaf.isType_relabel hf.faithful, Leaf.columnType?_relabel hf, Leaf.value_relabel hf, ih]

theorem gather_relabel (definitions : Bool) (action : Action) (leaves : List Leaf) :
    gather definitions action (leaves.map (Leaf.relabel f)) = gather definitions action leaves := by
  simp only [gather, gatherFrom_relabel hf]

theorem columns_relabel (plan : TablePlan) (leaves : List Leaf) :
    plan.columns (leaves.map (Leaf.relabel f)) = plan.columns leaves := by
  simp only [TablePlan.columns, definedColumns, mentionedColumns, owned_relabel hf,
    gather_relabel hf]

end Ownership

section Filter

theorem introduces?_relabel (hf : Token.Faithful f) (n : Node) :
    introduces? (n.relabel f) = introduces? n := by
  rw [introduces?, introduces?, Node.keyword?_relabel hf, Node.isMark_relabel hf]

theorem operatorText_relabel (hf : Token.Verbatim f) (n : Node) :
    operatorText (n.relabel f) = operatorText n := by
  cases n with
  | leaf t => exact hf.normalized t
  | group shape children => exact Node.text_relabel hf (.group shape children)

theorem ofParts_relabel (hf : Token.Verbatim f) (children : List Node) :
    Condition.ofParts (Node.relabelAll f children) = Condition.ofParts children := by
  simp only [Condition.ofParts, Node.textOf_relabelAll hf]
  rw [Node.relabelAll_eq_map, List.filter_map, Node.isVisible_relabel hf.faithful]
  -- Of three parts, and of any other number, there are as many as before.
  generalize children.filter (fun n => !n.isWhitespace) = visible
  rcases visible with _ | ⟨a, _ | ⟨b, _ | ⟨c, _ | ⟨d, rest⟩⟩⟩⟩
  · rfl
  · rfl
  · rfl
  · simp only [List.map_cons, List.map_nil, Node.value_relabel hf, operatorText_relabel hf]
  · rfl

mutual

theorem filterItems_relabel (hf : Token.Verbatim f) (introducer : Node) : (n : Node) →
    filterItems (introducer.relabel f) (n.relabel f) = filterItems introducer n
  | .leaf t => by
      have htext := Node.text_relabel hf (.leaf t)
      simp only [Node.relabel] at htext
      simp only [Node.relabel, filterItems, Node.text_relabel hf, htext]
  | .group shape children => by
      have htext := Node.text_relabel hf (.group shape children)
      rw [Node.relabel] at htext ⊢
      cases shape <;>
        simp only [filterItems, ofParts_relabel hf, collect_relabelAll hf children,
          Node.text_relabel hf, htext]

theorem introduced_relabelAll (hf : Token.Verbatim f) (introducer : Node) : (ns : List Node) →
    introduced (introducer.relabel f) (Node.relabelAll f ns) = introduced introducer ns
  | [] => by simp only [Node.relabelAll, introduced, Node.text_relabel hf]
  | n :: ns => by
      simp only [Node.relabelAll, introduced, Node.isWhitespace_relabel hf.faithful,
        introduced_relabelAll hf introducer ns, filterItems_relabel hf introducer n]

theorem collect_relabelAll (hf : Token.Verbatim f) : (ns : List Node) →
    collect (Node.relabelAll f ns) = collect ns
  | [] => rfl
  | n :: ns => by
      simp only [Node.relabelAll, collect, introduces?_relabel hf.faithful,
        introduced_relabelAll hf n ns, collect_relabelAll hf ns]

end

theorem find?_relabel (g : Group) (shape : Shape) :
    (g.relabel f).find? shape = (g.find? shape).map (Group.relabel f) := by
  have hgroup : Node.group? ∘ Node.relabel f = fun n => n.group?.map (Group.relabel f) := by
    funext n
    cases n with
    | leaf t => rfl
    | group shape children =>
        simp only [Function.comp_apply, Node.relabel_group, Node.group?, Option.map_some,
          Group.relabel]
  simp only [Group.find?, Group.relabel, List.filterMap_map, hgroup]
  rw [← List.map_filterMap, List.find?_map]
  rfl

theorem filterOf_relabel (hf : Token.Verbatim f) (root : Group) :
    filterOf (root.relabel f) = filterOf root := by
  simp only [filterOf, find?_relabel]
  cases root.find? .whereClause with
  | none => rfl
  | some clause =>
      simp only [Option.map_some, Group.relabel, ← Node.relabelAll_eq_map, collect_relabelAll hf]

end Filter

section Extract

variable (hf : Token.Verbatim f)

include hf

theorem target_relabel (leaves : List Leaf) :
    target (leaves.map (Leaf.relabel f)) = target leaves := by
  have htarget : Leaf.isTarget ∘ Leaf.relabel f = Leaf.isTarget :=
    funext (Leaf.isTarget_relabel hf.faithful)
  simp only [target, List.filter_map, htarget]
  cases leaves.filter Leaf.isTarget with
  | nil => rfl
  | cons l rest => simp only [List.map_cons, Leaf.value_relabel hf]

theorem targetPair_relabel (leaves : List Leaf) :
    targetPair (leaves.map (Leaf.relabel f)) = targetPair leaves := by
  have htarget : Leaf.isTarget ∘ Leaf.relabel f = Leaf.isTarget :=
    funext (Leaf.isTarget_relabel hf.faithful)
  simp only [targetPair, List.filter_map, htarget]
  rcases leaves.filter Leaf.isTarget with _ | ⟨l, _ | ⟨m, rest⟩⟩
  · rfl
  · rfl
  · simp only [List.map_cons, Leaf.value_relabel hf]

theorem firstColumn_relabel (leaves : List Leaf) :
    firstColumn (leaves.map (Leaf.relabel f)) = firstColumn leaves := by
  simp only [firstColumn, List.find?_map, Leaf.isColumn_comp_relabel hf.faithful]
  cases leaves.find? Leaf.isColumn with
  | none => rfl
  | some l => simp only [Option.map_some, Leaf.value_relabel hf]

theorem defaultValue_relabel (leaves : List Leaf) :
    defaultValue (leaves.map (Leaf.relabel f)) = defaultValue leaves := by
  have hdefault : (fun l => Leaf.keyword? l != some .default) ∘ Leaf.relabel f =
      fun l => l.keyword? != some .default := by
    funext l
    simp only [Function.comp_apply, Leaf.keyword?_relabel hf.faithful]
  simp only [defaultValue, List.dropWhile_map, hdefault, ← List.map_drop, skipBlanks_relabel hf]
  cases skipBlanks ((leaves.dropWhile fun l => l.keyword? != some .default).drop 1) with
  | nil => rfl
  | cons l rest => simp only [List.map_cons, Leaf.value_relabel hf]

theorem pairColumns_relabel (names values : List Leaf) :
    pairColumns (names.map (Leaf.relabel f)) (values.map (Leaf.relabel f)) =
      pairColumns names values := by
  simp only [pairColumns, List.isEmpty_map, List.length_map, List.map_map, List.zipWith_map,
    Function.comp_def, Leaf.value_relabel hf, Leaf.writeAction_relabel]

theorem writtenTable_relabel (plan : WritePlan) (root : Group) :
    writtenTable plan (root.relabel f) = writtenTable plan root := by
  have hwritten : (fun l => Leaf.isWritten l plan.keyword) ∘ Leaf.relabel f =
      fun l => l.isWritten plan.keyword :=
    funext fun l => Leaf.isWritten_relabel hf.faithful l plan.keyword
  simp only [writtenTable, filterIf, Group.leaves_relabel, target_relabel hf, List.filter_map,
    hwritten, Leaf.isColumn_comp_relabel hf.faithful, pairColumns_relabel hf, filterOf_relabel hf]

theorem constrainedTable_relabel (kind : ConstraintKind) (root : Group) :
    constrainedTable kind (root.relabel f) = constrainedTable kind root := by
  simp only [constrainedTable, Group.leaves_relabel, targetPair_relabel hf, List.filter_map,
    Leaf.isColumn_comp_relabel hf.faithful, List.map_map, Function.comp_def,
    Leaf.value_relabel hf]

theorem run_relabel (x : Extraction) (root : Group) : x.run (root.relabel f) = x.run root := by
  cases x with
  | database => simp only [Extraction.run, Group.leaves_relabel, target_relabel hf]
  | table plan =>
      simp only [Extraction.run, tableOf, filterIf, Group.leaves_relabel, target_relabel hf,
        columns_relabel hf, filterOf_relabel hf]
  | write plan => simp only [Extraction.run, writtenTable_relabel hf]
  | addConstraint kind => simp only [Extraction.run, constrainedTable_relabel hf]
  | dropConstraint =>
      simp only [Extraction.run, releasedTable, Group.leaves_relabel, targetPair_relabel hf]
  | setDefault =>
      simp only [Extraction.run, defaultedTable, Group.leaves_relabel, target_relabel hf,
        defaultValue_relabel hf, firstColumn_relabel hf]
  | dropDefault =>
      simp only [Extraction.run, undefaultedTable, Group.leaves_relabel, target_relabel hf,
        firstColumn_relabel hf]

end Extract

theorem commandTag_relabel (hf : Token.Faithful f) (root : Group) :
    commandTag (root.relabel f) = commandTag root := by
  have hkeyword : Node.keyword? ∘ Node.relabel f = Node.keyword? :=
    funext (Node.keyword?_relabel hf)
  simp only [commandTag, Group.keywords, Group.relabel, List.filterMap_map, hkeyword]

/-- A tree whose tokens keep their kinds and texts is about the same entity. -/
theorem classifyTree_relabel (hf : Token.Verbatim f) (root : Group) :
    classifyTree (root.relabel f) = classifyTree root := by
  simp only [classifyTree, commandTag_relabel hf.faithful, Command.extract, run_relabel hf]

/-- A token that can stand inside a statement, wherever that is: no error, no
    end, and no semicolon. -/
structure Token.Inside (t : Token) : Prop where
  error : t.error? = none
  eof : t.kind ≠ .eof
  mark : t.isMark ";" = false

/-- A text whose tokens are those of some items, places aside, is about what
    the tree of these items is about. -/
theorem classify_of_tokens {sql : String} {items : List Nested}
    (htokens : (tokenize sql).map Token.unplaced = Nested.tokensOf items ++ [Token.ending 0])
    (hmatched : ∀ item ∈ items, item.Matched)
    (hinside : ∀ t ∈ Nested.tokensOf items, t.Inside)
    (hvisible : ∃ t ∈ Nested.tokensOf items, t.isWhitespace = false) :
    classify sql = classifyTree ⟨.statement, rootNodes items⟩ := by
  have hf := Token.verbatim_unplaced
  rcases List.map_eq_append_iff.1 htokens with ⟨body, last, hsplit, hbody, hlast⟩
  rcases List.map_eq_singleton_iff.1 hlast with ⟨ending, rfl, hending⟩
  -- What holds of the tokens of the items holds of those of the text.
  have hplain : ∀ t ∈ body, t.Inside := by
    intro t ht
    have hmem : t.unplaced ∈ Nested.tokensOf items := by
      rw [← hbody]
      exact List.mem_map_of_mem ht
    have h := hinside _ hmem
    exact ⟨h.error, h.eof, h.mark⟩
  have hsome : ∃ t ∈ body, t.isWhitespace = false := by
    rcases hvisible with ⟨t, ht, hblank⟩
    rw [← hbody] at ht
    rcases List.mem_map.1 ht with ⟨u, hu, rfl⟩
    exact ⟨u, hu, hblank⟩
  have heof : ending.kind = .eof := congrArg Token.kind hending
  have hread : readStatement sql = .ok body := by
    -- None of the tokens is an error, and only the last is taken off.
    have herror : (tokenize sql).findSome? Token.parseError? = none := by
      rw [List.findSome?_eq_none_iff, hsplit]
      intro t ht
      rcases List.mem_append.1 ht with ht | ht
      · rw [Token.parseError?, (hplain t ht).error, Option.map_none]
      · rw [List.mem_singleton] at ht
        rw [ht, Token.parseError?, Token.error?, heof]
        rfl
    have hfilter : (tokenize sql).filter (fun t => t.kind != .eof) = body := by
      rw [hsplit, List.filter_append,
        List.filter_eq_self.2 fun t ht => bne_iff_ne.2 (hplain t ht).eof]
      simp only [List.filter_cons, heof, bne_self_eq_false, Bool.false_eq_true, if_false,
        List.filter_nil, List.append_nil]
    rw [readStatement, herror, hfilter,
      firstStatement?_eq_self (fun t ht => (hplain t ht).mark) hsome]
  -- The tokens nest as the items do.
  have hnest := Nested.nest_relabel hf.faithful body
  rw [hbody, Nested.nest_tokensOf hmatched] at hnest
  cases hitems : Nested.nest body with
  | error e =>
      rw [hitems] at hnest
      simp only [Except.toOption, Option.map_none, reduceCtorEq] at hnest
  | ok placed =>
      rw [hitems] at hnest
      simp only [Except.toOption, Option.map_some, Option.some.injEq] at hnest
      rw [hnest, rootNodes_relabel hf.faithful]
      have htree := classifyTree_relabel hf ⟨.statement, rootNodes placed⟩
      rw [Group.relabel] at htree
      rw [htree]
      simp only [classify, Group.ofText, hread, hitems]

end SqlGist
