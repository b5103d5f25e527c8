import SqlGist.Proofs.Constraints.Columns
import SqlGist.Proofs.Tree.OuterItems
import SqlGist.Proofs.Writes.Lists

/-!
# What a Query Selects

The projection of a query stands between its `SELECT` and its `FROM`, and its
items between the commas there. Each of these is outside all parentheses, so all
of it can be told from the tokens, without a tree. An item that is one word, with
at most a qualifier in front, selects a column of that name.

The tree has the projection as one list, and what stands between its commas are
the items of the tokens. In a list every name is a column unless a point follows,
and behind the word of an item a comma follows or nothing. So the word is a column
if it is a name. It is no keyword, since a query has no other keywords than its
two. But the word of a builtin type is neither, and as an item it is passed over.

## Main definitions

* `projection`: The tokens between `SELECT` and `FROM`.
* `Token.isWord`: A token is a word or a quoted name.
* `itemWord?`: The word of an item.
* `projectedWords`: The words of the items of a projection.
* `Group.Projects`: A statement that is a query, cut at its two keywords.

## Theorems

* `exists_projects`: Such a statement has a projection.
* `Projects.projection_eq`: Its tokens are those of the projection.
* `Projects.exists_column`: A name in it is a column, unless a point follows.
* `projected_words_selected`: All words but those of builtin types are selected.
* `date_not_selected`: The word of a builtin type is not.
-/

namespace SqlGist

/-- The tokens between the first `SELECT` of a statement and the next `FROM`,
    both outside parentheses. -/
def projection (statement : List Token) : List Token :=
  (cutAtKeyword [.fromKw] 0 ((cutAtKeyword [.select] 0 statement).2.drop 1)).1

/-- Whether the token is a word, whatever it means, or a quoted name. -/
def Token.isWord (t : Token) : Bool :=
  t.isName || t.kind = .builtin || t.keyword?.isSome

theorem Token.isMark_of_isWord {t : Token} (h : t.isWord = true) (mark : String) :
    t.isMark mark = false := by
  refine Token.isMark_eq_false (fun hkind => ?_) mark
  simp only [isWord, isName, keyword?, hkind, reduceCtorEq, decide_false, Option.isSome_none,
    Bool.or_self, Bool.false_eq_true] at h

/-- The word of an item that is one word, with at most a qualifier and a point in
    front. -/
def itemWord? (item : List Token) : Option Token :=
  match visibleTokens item with
  | [word] => if word.isWord then some word else none
  | [qualifier, point, word] =>
    if qualifier.isWord && point.isMark "." && word.isWord then some word else none
  | _ => none

/-- The words of those items of a projection that are one word, with at most a
    qualifier in front. -/
def projectedWords (statement : List Token) : List Token :=
  (splitCommas 0 (projection statement)).filterMap itemWord?

/-- A word ends its item, and no operator stands in front of it. -/
theorem exists_of_itemWord? {item : List Token} {word : Token} (h : itemWord? item = some word) :
    word.isWord = true ∧ ∃ front, visibleTokens item = front ++ [word] ∧
      ∀ t, front.getLast? = some t → (Node.leaf t).isMark "." = true := by
  rw [itemWord?] at h
  split at h
  · rename_i w hitem
    split at h
    · rename_i hword
      rw [← Option.some.inj h]
      exact ⟨hword, [], hitem, fun t ht => absurd ht.symm (Option.some_ne_none t)⟩
    · exact absurd h.symm (Option.some_ne_none word)
  · rename_i qualifier point w hitem
    split at h
    · rename_i hchecks
      rw [Bool.and_eq_true, Bool.and_eq_true] at hchecks
      rw [← Option.some.inj h]
      refine ⟨hchecks.2, [qualifier, point], hitem, fun t ht => ?_⟩
      rw [← Option.some.inj ht]
      exact hchecks.1.2
    · exact absurd h.symm (Option.some_ne_none word)
  · exact absurd h.symm (Option.some_ne_none word)

/-- A statement cut at its `SELECT` and its `FROM`, with the list of a run between
    these and no other keyword up to the `FROM`. -/
structure Group.Projects (root : Group) (front : List Node) (opening : Node) (run : List Node)
    (closing : Node) (back : List Node) : Prop where
  shape : root.shape = .statement
  children : root.children = front ++ opening :: (Node.listRun true run ++ closing :: back)
  opens : opening.keyword? = some .select
  closes : closing.keyword? = some .fromKw
  transparent : ∀ n ∈ front ++ Node.listRun true run, n.Transparent
  free : ∀ n ∈ front ++ run, n.keyword? = none
  tidy : ∀ n ∈ run, n.Tidy
  unlisted : ∀ n ∈ run, n.isGroup .nameList = false

theorem exists_projects {sql : String} {root : Group} (hroot : Group.ofText sql = .ok root)
    (hkeywords : root.keywords = [.select, .fromKw]) :
    ∃ front opening run closing back, root.Projects front opening run closing back := by
  rcases ofText_eq_ok_iff.1 hroot with ⟨_, items, -, hnest, rfl⟩
  have hmatched := Nested.matched_nest hnest
  have hkeywords : (rootNodes items).filterMap Node.keyword? = [.select, .fromKw] := hkeywords
  have hends : ∀ k ∈ (rootNodes items).filterMap Node.keyword?, k ∉ Node.conditionEnds := by
    rw [hkeywords]
    decide
  rcases exists_front_of_rootNodes hends with ⟨level, behind, tail, hns, heq, hlevel, -, -⟩
  -- The level in front of the condition is cut at its two keywords.
  rcases List.filterMap_eq_cons_iff.1 (hlevel.trans hkeywords) with
    ⟨front, opening, rest, rfl, hfront, hopens, hrest⟩
  rcases List.filterMap_eq_cons_iff.1 hrest with ⟨body, closing, back, rfl, hbody, hcloses, -⟩
  have hcut : ungroupedNodes items = front ++ opening :: (body ++ closing :: (back ++ behind)) := by
    rw [hns, List.append_assoc, List.cons_append, List.append_assoc, List.cons_append]
  have hnew : ∀ n ∈ front, n.keyword? ≠ some .select := by
    intro n hn
    rw [hfront n hn]
    exact (Option.some_ne_none _).symm
  have hstop : ∀ n, (closing :: (back ++ behind)).head? = some n → n.keyword? ≠ none := by
    intro n hn
    rw [← Option.some.inj hn, hcloses]
    exact Option.some_ne_none _
  rcases exists_run_of_ungroupedNodes hcut hnew hopens hbody hstop with ⟨run, hrun, hmem, hfree⟩
  have hprojects : opening.opensProjection = true := by
    rw [Node.opensProjection, hopens]
    rfl
  rw [hprojects] at hrun
  subst hrun
  have hsub : ∀ n ∈ front ++ Node.listRun true run, n ∈ ungroupedNodes items := by
    intro n hn
    rw [hcut]
    rcases List.mem_append.1 hn with hn | hn
    · exact List.mem_append_left _ hn
    · exact List.mem_append_right _ (List.mem_cons_of_mem _ (List.mem_append_left _ hn))
  have hlevelNodes : ∀ n ∈ run, n ∈ levelNodes items :=
    fun n hn => hmem.subset (List.mem_cons_of_mem _ hn)
  refine ⟨front, opening, run, closing, back ++ tail, ⟨rfl, ?_, hopens, hcloses,
    fun n hn => transparent_of_mem_ungroupedNodes hmatched n (hsub n hn), fun n hn => ?_,
    fun n hn => tidy_levelNodes hmatched n (hlevelNodes n hn),
    fun n hn => not_list_of_mem_levelNodes (hlevelNodes n hn)⟩⟩
  · rw [heq, List.append_assoc, List.cons_append, List.append_assoc, List.cons_append]
  · rcases List.mem_append.1 hn with hn | hn
    · exact hfront n hn
    · exact hfree n hn

section Block

variable {α : Type} {a : α} {front back before after : List α}

/-- What is not in the first part of a list is in the second. -/
theorem exists_behind (h : front ++ back = before ++ a :: after) (ha : a ∉ front) :
    ∃ taken, back = taken ++ a :: after := by
  rcases List.append_eq_append_iff.1 h with ⟨taken, -, hback⟩ | ⟨taken, hfront, hafter⟩
  · exact ⟨taken, hback⟩
  · rcases List.cons_eq_append_iff.1 hafter with ⟨-, hback⟩ | ⟨more, rfl, -⟩
    · exact ⟨[], hback⟩
    · refine absurd ?_ ha
      rw [hfront]
      exact List.mem_append_right _ List.mem_cons_self

/-- What is not in the second part of a list is in the first. -/
theorem exists_before (h : front ++ back = before ++ a :: after) (ha : a ∉ back) :
    ∃ rest, front = before ++ a :: rest ∧ after = rest ++ back := by
  rcases List.append_eq_append_iff.1 h with ⟨taken, -, hback⟩ | ⟨taken, hfront, hafter⟩
  · refine absurd ?_ ha
    rw [hback]
    exact List.mem_append_right _ List.mem_cons_self
  · rcases List.cons_eq_append_iff.1 hafter with ⟨-, hback⟩ | ⟨rest, rfl, hrest⟩
    · refine absurd ?_ ha
      rw [hback]
      exact List.mem_cons_self
    · exact ⟨rest, hfront, hrest⟩

end Block

/-- A visible node of a list with blanks around it is one of those between. -/
theorem exists_of_visible_between {before after gap items gap' : List Node} {n : Node}
    (h : before ++ n :: after = gap ++ (items ++ gap')) (hn : n.isWhitespace = false)
    (hgap : ∀ m ∈ gap, m.isWhitespace = true) (hgap' : ∀ m ∈ gap', m.isWhitespace = true) :
    ∃ inner rest, items = inner ++ n :: rest ∧ after = rest ++ gap' := by
  have hoff : ∀ ms : List Node, (∀ m ∈ ms, m.isWhitespace = true) → n ∉ ms :=
    fun ms hms hmem => Bool.false_ne_true (hn.symm.trans (hms n hmem))
  rcases exists_behind h.symm (hoff gap hgap) with ⟨inner, hinner⟩
  rcases exists_before hinner (hoff gap' hgap') with ⟨rest, hitems, hafter⟩
  exact ⟨inner, rest, hitems, hafter⟩

/-- In a list without keywords a name is a column, unless a point follows. -/
theorem exists_column_of_list {items inner rest : List Node} {word : Token} {path : List Frame}
    (houtside : Group.Outside ⟨.nameList, items⟩ path)
    (hitems : items = inner ++ Node.nameRef (.leaf word) :: rest) (hword : word.isName = true)
    (hfree : ∀ n ∈ items, n.keyword? = none)
    (hnext : ∀ n, (Node.visibleOf rest).head? = some n → n.isMark "." = false) :
    ∃ l ∈ (Node.group .nameList items).leaves path, l.isColumn = true ∧ l.value = word.value := by
  have hcolumn : Frame.holdsColumn ⟨⟨.nameList, items⟩, inner.length⟩ = true := by
    refine holdsColumn_of_next (show Shape.nameList ∈ namingShapes by decide) hfree
      fun n hn => hnext n ?_
    rw [Frame.next?_of_eq hitems] at hn
    rw [Node.visibleOf, List.head?_filter, hn]
  refine ⟨_, Node.mem_leaves_of_child hitems ?_, (isColumn_nameRef hword houtside _).trans hcolumn,
    rfl⟩
  exact List.mem_singleton_self _

namespace Group.Projects

variable {root : Group} {front run back : List Node} {opening closing : Node}
  (h : root.Projects front opening run closing back)

include h

/-- The tokens between the two keywords are those of the run. -/
theorem projection_eq : projection (Node.tokensOf root.children) = Node.tokensOf run := by
  have hpass : ∀ {ns : List Node}, (∀ n ∈ ns, n.keyword? = none) → ∀ ks : List Keyword,
      ∀ n ∈ ns, ∀ k, n.keyword? = some k → k ∉ ks := fun hfree ks n hn k hk =>
    absurd (hk.symm.trans (hfree n hn)) (Option.some_ne_none k)
  have hselect : cutAtKeyword [.select] 0 (Node.tokensOf root.children) = (Node.tokensOf front,
      Node.tokensOf (opening :: (Node.listRun true run ++ closing :: back))) := by
    rw [h.children]
    exact cutAtKeyword_first (fun n hn => h.transparent n (List.mem_append_left _ hn)) (by decide)
      (hpass (fun n hn => h.free n (List.mem_append_left _ hn)) _) h.opens List.mem_cons_self _
  have hfrom : cutAtKeyword [.fromKw] 0 (Node.tokensOf (Node.listRun true run ++ closing :: back)) =
      (Node.tokensOf (Node.listRun true run), Node.tokensOf (closing :: back)) := by
    have hfree : ∀ n ∈ Node.listRun true run, n.keyword? = none := fun n hn =>
      Node.keyword?_of_mem_listRun (fun m hm => h.free m (List.mem_append_right _ hm)) hn
    exact cutAtKeyword_first (fun n hn => h.transparent n (List.mem_append_right _ hn)) (by decide)
      (hpass hfree _) h.closes List.mem_cons_self _
  cases opening with
  | group => exact absurd h.opens.symm (Option.some_ne_none _)
  | leaf t =>
      rw [projection, hselect, Node.tokensOf, Node.tokens, List.singleton_append, List.drop_one,
        List.tail_cons, hfrom, Node.tokensOf_listRun]

/-- In the list of the run a name is a column, unless a point follows. -/
theorem exists_column {before after : List Node} {word : Token}
    (hrun : run = before ++ Node.nameRef (.leaf word) :: after) (hword : word.isName = true)
    (hnext : ∀ n, (Node.visibleOf after).head? = some n → n.isMark "." = false) :
    ∃ l ∈ root.leaves, l.isColumn = true ∧ l.value = word.value := by
  rcases Node.wrapList_cases run with ⟨hblank, -⟩ | ⟨gap, items, gap', hitems, hlist, hgap, hgap'⟩
  · have hmem : Node.nameRef (.leaf word) ∈ run := by
      rw [hrun]
      exact List.mem_append_right _ List.mem_cons_self
    exact absurd (hblank _ hmem) Bool.false_ne_true
  · rcases exists_of_visible_between (hrun.symm.trans hitems) rfl hgap hgap' with
      ⟨inner, rest, hinner, rfl⟩
    rw [Node.visibleOf_append, Node.visibleOf_blank hgap', List.append_nil] at hnext
    have hchildren : root.children =
        (front ++ opening :: gap) ++ .group .nameList items :: (gap' ++ closing :: back) := by
      rw [h.children, show Node.listRun true run = Node.wrapList run from rfl, hlist]
      simp only [List.append_assoc, List.cons_append]
    have hfree : ∀ n ∈ items, n.keyword? = none := by
      intro n hn
      refine h.free n (List.mem_append_right _ ?_)
      rw [hitems]
      exact List.mem_append_right _ (List.mem_append_left _ hn)
    have houtside : Group.Outside ⟨.nameList, items⟩ [⟨root, (front ++ opening :: gap).length⟩] :=
      (outside_of_statement h.shape).inner Shape.noConfusion _
    rcases exists_column_of_list houtside hinner hword hfree hnext with ⟨l, hl, hcolumn⟩
    exact ⟨l, Node.mem_leaves_of_child hchildren hl, hcolumn⟩

/-- The words of the items are columns, except those of builtin types. -/
theorem exists_column_of_word {word : Token}
    (hmem : word ∈ projectedWords (Node.tokensOf root.children)) (hkind : word.kind ≠ .builtin) :
    ∃ l ∈ root.leaves, l.isColumn = true ∧ l.value = word.value := by
  rcases List.mem_filterMap.1 hmem with ⟨item, hitem, hitemWord⟩
  rw [h.projection_eq, Node.splitCommas_tokensOf h.tidy h.unlisted] at hitem
  rcases List.mem_map.1 hitem with ⟨piece, hpiece, rfl⟩
  rcases exists_of_mem_splitOnP hpiece with ⟨left, right, hrun, hright⟩
  rcases exists_of_itemWord? hitemWord with ⟨hword, first, hvisible, hfirst⟩
  have hpart : ∀ n ∈ piece, n ∈ run := by
    intro n hn
    rw [hrun]
    exact List.mem_append_right _ (List.mem_append_left _ hn)
  have hoperator : ∀ t, first.getLast? = some t →
      (Node.leaf t).isComparisonOperator = false := fun t ht =>
    Bool.eq_false_iff.2 fun h => Node.not_part_of_isMark (hfirst t ht) (Or.inr (Or.inl h))
  rcases Node.exists_node_of_end (fun n hn => h.tidy n (hpart n hn))
    (fun n hn => h.unlisted n (hpart n hn)) hvisible (Token.isMark_of_isWord hword ")") hoperator
    with ⟨before, n, blanks, rfl, hn, hblanks⟩
  have hn' : n ∈ run := hpart n (List.mem_append_right _ List.mem_cons_self)
  rcases hn with rfl | rfl
  · -- A word that is a leaf is no name, and no keyword stands between the two.
    cases h.tidy _ hn' with
    | leaf hname =>
        have hnone : word.keyword? = none := h.free _ (List.mem_append_right _ hn')
        have hother : word.isWord = false := by
          rw [Token.isWord, hname, hnone, decide_eq_false hkind]
          rfl
        exact absurd (hother.symm.trans hword) Bool.false_ne_true
  · cases h.tidy _ hn' with
    | name hname =>
        have hsplit : run =
            (left ++ before) ++ Node.nameRef (.leaf word) :: (blanks ++ right) := by
          rw [hrun, List.append_assoc, List.append_assoc, List.cons_append]
        refine h.exists_column hsplit hname fun n hn => ?_
        -- Behind the word comes a comma, or nothing.
        rw [Node.visibleOf_append, Node.visibleOf_blank hblanks, List.nil_append] at hn
        cases right with
        | nil => exact absurd hn.symm (Option.some_ne_none n)
        | cons m right =>
            have hcomma := hright m rfl
            have hvisible : Node.visibleOf (m :: right) = m :: Node.visibleOf right :=
              List.filter_cons_of_pos (by rw [Node.isWhitespace_of_isMark hcomma, Bool.not_false])
            rw [hvisible, List.head?_cons, Option.some.injEq] at hn
            rw [← hn]
            exact Node.isMark_of_ne hcomma (by decide)

end Group.Projects

/-- The names of columns that are only mentioned are those of the column leaves. -/
theorem names_mentioned {action : Action} {leaves : List Leaf} {columns : List Column}
    (h : mentionedColumns action leaves = .ok columns) :
    columns.filterMap Column.name = columnNames leaves := by
  calc columns.filterMap Column.name
      = (columns.map Column.name).filterMap id := by rw [List.filterMap_map, Function.id_comp]
    _ = ((columnNames leaves).map some).filterMap id := by rw [names_gather h]
    _ = columnNames leaves := by
        rw [List.filterMap_map]
        exact List.filterMap_some

/-- Every word that is an item of a projection by itself, or with a qualifier in
    front, is the name of a column, unless it is that of a builtin type. -/
theorem projected_words_selected {sql : String} {e : Entity} (h : classify sql = .ok e)
    (htag : statementTag sql = .ok Command.select.tag) :
    ∃ statement t, readStatement sql = .ok statement ∧ e = .table t ∧
      ∀ word ∈ projectedWords statement, word.kind ≠ .builtin → word.value ∈ t.columnNames := by
  rcases classify_eq_ok_iff.1 h with ⟨root, _, hroot, -, -⟩
  rcases map_eq_ok.1 (extract_of_tag h htag hroot) with ⟨t, ht, rfl⟩
  rcases tableOf_eq_ok_iff.1 ht with ⟨_, columns, _, -, hcolumns, -, rfl⟩
  have hkeywords : root.keywords = [.select, .fromKw] :=
    keywords_of_statementTag (c := .select) (by decide) htag hroot
  rcases exists_projects hroot hkeywords with ⟨front, opening, run, closing, back, hprojects⟩
  rcases ofText_tokens hroot with ⟨statement, hread, hstatement⟩
  rw [Group.leaves_tokens] at hstatement
  refine ⟨statement, _, hread, rfl, fun word hword hkind => ?_⟩
  rw [← hstatement] at hword
  rcases hprojects.exists_column_of_word hword hkind with ⟨l, hl, hcolumn⟩
  rw [Table.columnNames, names_mentioned hcolumns]
  exact mem_columnNames_iff.2 ⟨l, hl, hcolumn⟩

/-- A qualified name, a quoted name that is a type without its quotes, and a name
    behind a call. -/
theorem projected_words_selected_quoted :
    ∃ statement t, classify "SELECT x.a, \"date\", f(c), b FROM t" = .ok (.table t) ∧
      statementTag "SELECT x.a, \"date\", f(c), b FROM t" = .ok Command.select.tag ∧
      readStatement "SELECT x.a, \"date\", f(c), b FROM t" = .ok statement ∧
      (projectedWords statement).map Token.value = ["a", "date", "b"] ∧
      ∀ word ∈ projectedWords statement, word.kind ≠ .builtin → word.value ∈ t.columnNames := by
  have htag : (statementTag "SELECT x.a, \"date\", f(c), b FROM t").toOption =
      some Command.select.tag := by
    decide +kernel
  have hok : (classify "SELECT x.a, \"date\", f(c), b FROM t").toOption.isSome = true := by
    decide +kernel
  have hwords : (readStatement "SELECT x.a, \"date\", f(c), b FROM t").toOption.map
      (fun statement => (projectedWords statement).map Token.value) = some ["a", "date", "b"] := by
    decide +kernel
  rcases Option.isSome_iff_exists.1 hok with ⟨e, he⟩
  have he := eq_ok_of_toOption he
  have htag := eq_ok_of_toOption htag
  rcases projected_words_selected he htag with ⟨statement, t, hread, rfl, hselected⟩
  rw [hread] at hwords
  exact ⟨statement, t, he, htag, hread, Option.some.inj hwords, hselected⟩

/-- The word of a builtin type is an item as well, and no column. -/
theorem date_not_selected :
    ∃ statement t word, classify "SELECT date FROM t" = .ok (.table t) ∧
      statementTag "SELECT date FROM t" = .ok Command.select.tag ∧
      readStatement "SELECT date FROM t" = .ok statement ∧ word ∈ projectedWords statement ∧
      word.value = "date" ∧ t.columnNames = [] := by
  have htag : (statementTag "SELECT date FROM t").toOption = some Command.select.tag := by
    decide +kernel
  have hcheck : ((classify "SELECT date FROM t").toOption.bind Entity.table?).any
      (fun t => t.columnNames.isEmpty) = true := by
    decide +kernel
  have hwords : (readStatement "SELECT date FROM t").toOption.any
      (fun statement => (projectedWords statement).any fun word => word.value = "date") = true := by
    decide +kernel
  rcases exists_table_of_any hcheck with ⟨t, ht, hnames⟩
  rcases exists_of_toOption_any hwords with ⟨statement, hread, hword⟩
  rcases List.any_eq_true.1 hword with ⟨word, hmem, hvalue⟩
  exact ⟨statement, t, word, ht, eq_ok_of_toOption htag, hread, hmem, of_decide_eq_true hvalue,
    List.isEmpty_iff.1 hnames⟩

end SqlGist
