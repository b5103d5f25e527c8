import SqlGist.Cli.Answer
import SqlGist.Proofs.Remainder
import SqlGist.Proofs.Token.BlankRuns
import SqlGist.Proofs.Tree.Partners

/-!
# What Is Wrong with a Text, and Where

Every text has a tree or a fault. A fault is the first token that is none, or
else that there is no statement, or else the parenthesis of the first statement
that has no partner. It is named with its place, and what stands there is shown,
unless the text is nothing but blanks and there is nothing to show.

A place shows something because the tokens that can be at fault are no blanks,
and such a token never opens with one: a blank in front of it would have been
read as a token of its own.

## Main definitions

* `Fault`: What is wrong with a text, and where.

## Theorems

* `firstStatement?_eq_none_iff`: There is no statement if there are only blanks
  and semicolons.
* `readStatement_of_isFirstStatement`: The first statement is what is read.
* `ofText_eq_error_iff`, `exists_ofText_iff`: When a text has no tree, and when
  it has one.
* `Fault.slice?_span`: The place of a fault covers some text.
* `ofText_diagnosis`: What has a tree, what fails where, and what is shown then.
-/

namespace SqlGist

/-- What is wrong with a text, and where. A token that is none comes before
    everything else, and that there is no statement before what is wrong with
    one. -/
inductive Fault (sql : String) : ParseError → Prop
  | lexical {before after : List Token} {t : Token} {cause : LexicalError}
      (htokens : tokenize sql = before ++ t :: after) (hfirst : ∀ u ∈ before, u.error? = none)
      (hcause : t.error? = some cause) : Fault sql ⟨.lexical cause, t.span⟩
  | empty (hnone : ∀ t ∈ tokenize sql, t.error? = none)
      (hidle : ∀ t ∈ tokenize sql, t.kind = .eof ∨ t.IsIdle) :
      Fault sql ⟨.emptyStatement, ⟨0, sql.utf8ByteSize⟩⟩
  | unpaired {before statement after : List Token} {e : ParseError}
      (hnone : ∀ t ∈ tokenize sql, t.error? = none)
      (htokens : tokenize sql = before ++ (statement ++ after))
      (hstatement : IsFirstStatement before statement after) (hunpaired : Unpaired statement e) :
      Fault sql e

/-! ### Looking for the statement -/

theorem Token.IsIdle.depthAfter {t : Token} (h : t.IsIdle) (depth : Nat) :
    depthAfter depth t = depth := by
  rcases h with hspace | hmark
  · have hkind : t.kind ≠ .punctuation := by
      rw [of_decide_eq_true hspace]
      exact TokenKind.noConfusion
    exact depthAfter_of_not_mark (isMark_eq_false hkind _) (isMark_eq_false hkind _) depth
  · simp only [isMark, Bool.and_eq_true, decide_eq_true_eq] at hmark
    refine depthAfter_of_not_mark ?_ ?_ depth <;>
      simp only [isMark, hmark.2, String.reduceEq, decide_false, Bool.and_false]

theorem depthBehind_of_idle {ts : List Token} (h : ∀ t ∈ ts, t.IsIdle) (depth : Nat) :
    depthBehind depth ts = depth := by
  induction ts with
  | nil => rfl
  | cons t ts ih =>
      rw [depthBehind_cons, (h t List.mem_cons_self).depthAfter,
        ih fun u hu => h u (List.mem_cons_of_mem t hu)]

theorem idle_of_firstStatement? {ts : List Token} (h : firstStatement? ts = none) :
    ∀ t ∈ ts, t.IsIdle := by
  induction hn : ts.length using Nat.strong_induction_on generalizing ts with
  | _ n ih =>
    rcases List.exists_cons_of_ne_nil (splitStatements_ne_nil 0 ts) with ⟨s, ss, hsplit⟩
    rw [firstStatement?, hsplit, List.find?_eq_none, List.forall_mem_cons, Bool.not_eq_true,
      List.any_eq_false] at h
    have hblank : ∀ t ∈ s, t.IsIdle := fun t ht => Or.inl (by
      simpa only [Bool.not_eq_true', Bool.not_eq_false] using h.1 t ht)
    rcases (splitStatements_eq_cons hsplit).2 with
      ⟨rfl, -⟩ | ⟨mark, rest, rfl, hmark, -, rfl⟩
    · exact hblank
    · -- Behind the semicolon there is no statement either.
      rw [List.length_append, List.length_cons] at hn
      have hrest := ih rest.length (by omega) (List.find?_eq_none.2 h.2) rfl
      exact List.forall_mem_append.2 ⟨hblank, List.forall_mem_cons.2 ⟨Or.inr hmark, hrest⟩⟩

theorem firstStatement?_eq_none_iff {ts : List Token} :
    firstStatement? ts = none ↔ ∀ t ∈ ts, t.IsIdle := by
  refine ⟨idle_of_firstStatement?, fun hidle => ?_⟩
  refine Option.eq_none_iff_forall_ne_some.2 fun stretch hstretch => ?_
  rcases exists_of_firstStatement? hstretch with
    ⟨before, after, rfl, -, -, ⟨t, ht, hvisible⟩, hundivided, -⟩
  have hidle : ∀ u ∈ stretch, u.IsIdle := fun u hu =>
    hidle u (List.mem_append_right _ (List.mem_append_left _ hu))
  rcases List.append_of_mem ht with ⟨front, back, rfl⟩
  rcases hidle t ht with hspace | hmark
  · exact Bool.false_ne_true (hvisible.symm.trans hspace)
  · -- The token is a semicolon, and nothing in front of it opens a parenthesis.
    exact hundivided front t back rfl hmark
      (depthBehind_of_idle (fun u hu => hidle u (List.mem_append_left _ hu)) 0)

section Reading

variable {sql : String}

theorem readStatement_of_isFirstStatement {before statement after : List Token}
    (hnone : ∀ t ∈ tokenize sql, t.error? = none)
    (htokens : tokenize sql = before ++ (statement ++ after))
    (h : IsFirstStatement before statement after) : readStatement sql = .ok statement := by
  refine readStatement_eq_ok_iff.2 ⟨hnone, ?_⟩
  rcases filter_tokenize sql with ⟨body, hbody, hfilter, hkinds⟩
  rw [hfilter]
  rcases List.eq_nil_or_concat after with rfl | ⟨init, last, rfl⟩
  · rcases h.closes with ⟨t, rest, hnil, -⟩
    exact absurd hnil.symm (List.cons_ne_nil t rest)
  -- The last of the tokens behind the statement is the one that is left out.
  rw [List.concat_eq_append] at htokens h
  rw [hbody, ← List.append_assoc, ← List.append_assoc] at htokens
  have hsplit := (List.append_inj' htokens rfl).1
  rw [List.append_assoc] at hsplit
  rw [hsplit] at hkinds ⊢
  refine firstStatement?_of_surroundings h.idle_before h.opens h.visible h.undivided ?_
  intro t ht
  rcases List.head?_eq_some_iff.1 ht with ⟨rest, rfl⟩
  rcases h.closes with ⟨u, rest', heq, hclose⟩
  rw [List.cons_append, List.cons.injEq] at heq
  rw [← heq.1] at hclose
  refine hclose.resolve_left (hkinds t ?_)
  exact List.mem_append_right _ (List.mem_append_right _ List.mem_cons_self)

theorem findSome?_parseError?_eq_some_iff {ts : List Token} {e : ParseError} :
    ts.findSome? Token.parseError? = some e ↔
      ∃ before t after cause, ts = before ++ t :: after ∧ (∀ u ∈ before, u.error? = none) ∧
        t.error? = some cause ∧ e = ⟨.lexical cause, t.span⟩ := by
  rw [List.findSome?_eq_some_iff]
  constructor
  · rintro ⟨before, t, after, heq, ht, hfirst⟩
    rcases Option.map_eq_some_iff.1 ht with ⟨cause, hcause, rfl⟩
    exact ⟨before, t, after, cause, heq, fun u hu => Option.map_eq_none_iff.1 (hfirst u hu),
      hcause, rfl⟩
  · rintro ⟨before, t, after, cause, heq, hfirst, hcause, rfl⟩
    refine ⟨before, t, after, heq, ?_, fun u hu => Option.map_eq_none_iff.2 (hfirst u hu)⟩
    rw [Token.parseError?, hcause, Option.map_some]

/-- No statement is read where a token is none, and where there are only blanks
    and semicolons. -/
theorem readStatement_eq_error_iff {e : ParseError} :
    readStatement sql = .error e ↔
      (tokenize sql).findSome? Token.parseError? = some e ∨
        (∀ t ∈ tokenize sql, t.error? = none) ∧
          (∀ t ∈ tokenize sql, t.kind = .eof ∨ t.IsIdle) ∧
            e = ⟨.emptyStatement, ⟨0, sql.utf8ByteSize⟩⟩ := by
  have hidle : firstStatement? ((tokenize sql).filter fun t => t.kind != .eof) = none ↔
      ∀ t ∈ tokenize sql, t.kind = .eof ∨ t.IsIdle := by
    simp only [firstStatement?_eq_none_iff, List.mem_filter, bne_iff_ne, and_imp, ne_eq,
      or_iff_not_imp_left]
  rw [readStatement, ← hidle, ← findSome?_parseError?_eq_none_iff]
  split
  · rename_i found hfound
    simp only [hfound, Except.error.injEq, Option.some.injEq, reduceCtorEq, false_and, or_false]
  · rename_i hnone
    split
    · rename_i found hfound
      simp only [hnone, hfound, reduceCtorEq, false_and, and_false, or_false]
    · rename_i hfound
      simp only [hnone, hfound, Except.error.injEq, reduceCtorEq, true_and, false_or]
      exact eq_comm

/-- A text has no tree exactly if it has a fault, and the fault is what is
    reported. -/
theorem ofText_eq_error_iff {e : ParseError} : Group.ofText sql = .error e ↔ Fault sql e := by
  constructor
  · intro h
    rw [Group.ofText] at h
    split at h
    · rename_i e' hread
      rw [Except.error.injEq] at h
      subst h
      rcases readStatement_eq_error_iff.1 hread with hlexical | ⟨hnone, hidle, rfl⟩
      · rcases findSome?_parseError?_eq_some_iff.1 hlexical with
          ⟨before, t, after, cause, htokens, hfirst, hcause, rfl⟩
        exact .lexical htokens hfirst hcause
      · exact .empty hnone hidle
    · rename_i statement hread
      split at h
      · rename_i e' hnest
        rw [Except.error.injEq] at h
        subst h
        rcases isFirstStatement_of_readStatement hread with
          ⟨hnone, before, after, htokens, hstatement⟩
        exact .unpaired hnone htokens hstatement (Nested.nest_eq_error_iff.1 hnest)
      · simp only [reduceCtorEq] at h
  · intro h
    rw [Group.ofText]
    cases h with
    | lexical htokens hfirst hcause =>
        rw [readStatement_eq_error_iff.2 (Or.inl (findSome?_parseError?_eq_some_iff.2
          ⟨_, _, _, _, htokens, hfirst, hcause, rfl⟩))]
    | empty hnone hidle =>
        rw [readStatement_eq_error_iff.2 (Or.inr ⟨hnone, hidle, rfl⟩)]
    | unpaired hnone htokens hstatement hunpaired =>
        simp only [readStatement_of_isFirstStatement hnone htokens hstatement,
          Nested.nest_of_unpaired hunpaired]

/-- A text has a tree exactly if all its tokens are some, there is a statement,
    and all parentheses of the first one have partners. -/
theorem exists_ofText_iff :
    (∃ root, Group.ofText sql = .ok root) ↔
      (∀ t ∈ tokenize sql, t.error? = none) ∧
        ∃ before statement after, tokenize sql = before ++ (statement ++ after) ∧
          IsFirstStatement before statement after ∧ AllOpened statement ∧ AllClosed statement := by
  constructor
  · rintro ⟨root, hroot⟩
    rcases ofText_eq_ok_iff.1 hroot with ⟨statement, items, hread, hnest, -⟩
    rcases isFirstStatement_of_readStatement hread with
      ⟨hnone, before, after, htokens, hstatement⟩
    exact ⟨hnone, before, statement, after, htokens, hstatement,
      Nested.nest_eq_ok_iff.1 ⟨items, hnest⟩⟩
  · rintro ⟨hnone, before, statement, after, htokens, hstatement, hall⟩
    rcases Nested.nest_eq_ok_iff.2 hall with ⟨items, hnest⟩
    exact ⟨_, ofText_eq_ok_iff.2 ⟨statement, items,
      readStatement_of_isFirstStatement hnone htokens hstatement, hnest, rfl⟩⟩

end Reading

/-! ### Showing the place -/

theorem Text.trim_eq_nil_iff {cs : List Char} :
    trim cs = [] ↔ ∀ c ∈ cs, CharClass.isBlank c = true := by
  rw [trim, cutTrailing_eq_nil_iff]
  refine ⟨fun h c hc => ?_, fun h c hc => h c ((List.dropWhile_sublist _).subset hc)⟩
  rw [← List.takeWhile_append_dropWhile (p := CharClass.isBlank) (l := cs)] at hc
  rcases List.mem_append.1 hc with hc | hc
  · exact List.mem_takeWhile_imp hc
  · exact h c hc

/-- A token that is no blank and not the end opens with a character that is no
    blank. -/
theorem exists_head_not_blank {sql : String} {t : Token} (ht : t ∈ tokenize sql)
    (hspace : t.kind ≠ .whitespace) (heof : t.kind ≠ .eof) :
    ∃ c cs, t.text.toList = c :: cs ∧ CharClass.isBlank c = false := by
  rcases List.append_of_mem ht with ⟨front, back, heq⟩
  rcases Cursor.exists_tokens_eq_cons heq with ⟨d, hd⟩
  rcases Cursor.tokens_eq_cons hd (Or.inl heof) with ⟨rfl, -, -⟩
  have hnil : d.next.1.text.toList ≠ [] := by
    simpa only [Cursor.next, String.toList_ofList] using lexeme_text_ne_nil heof
  rcases List.exists_cons_of_ne_nil hnil with ⟨c, cs, hcons⟩
  refine ⟨c, cs, hcons, Lexeme.not_blank_of_head? (Cursor.blankRun_of_visible hspace) c ?_⟩
  rw [← Cursor.next_append d, hcons, List.cons_append, List.head?_cons]

theorem mem_toList_of_mem_tokenize {sql : String} {t : Token} (ht : t ∈ tokenize sql) {c : Char}
    (hc : c ∈ t.text.toList) : c ∈ sql.toList := by
  rw [← tokenize_text sql]
  exact List.mem_flatten_of_mem (List.mem_map_of_mem ht) hc

/-- What a visible token covers is shown, and the text it is of holds more than
    blanks. -/
theorem slice?_of_visible {sql : String} {t : Token} (ht : t ∈ tokenize sql)
    (hspace : t.kind ≠ .whitespace) (heof : t.kind ≠ .eof) :
    ∃ covered, t.span.slice? sql = some covered ∧ (Text.trim covered.toList = [] ↔
      ∀ c ∈ sql.toList, CharClass.isBlank c = true) := by
  rcases exists_head_not_blank ht hspace heof with ⟨c, cs, hcons, hblank⟩
  have hc : c ∈ t.text.toList := by
    rw [hcons]
    exact List.mem_cons_self
  refine ⟨t.text, (tokenize_tiles sql).1.slice t ht, iff_of_false (fun htrim => ?_) fun hall => ?_⟩
  · exact Bool.false_ne_true (hblank.symm.trans (Text.trim_eq_nil_iff.1 htrim c hc))
  · exact Bool.false_ne_true (hblank.symm.trans (hall c (mem_toList_of_mem_tokenize ht hc)))

/-- A whole text covers itself. -/
theorem slice?_self (sql : String) : Span.slice? ⟨0, sql.utf8ByteSize⟩ sql = some sql := by
  refine (Span.slice?_eq_some_iff _ _ _).2 ⟨[], [], (List.append_nil _).symm, rfl, ?_⟩
  rw [List.nil_append, Text.byteLength_eq_utf8ByteSize, String.ofList_toList]

/-- The mark without a partner is a token of the stretch. -/
theorem Unpaired.exists_mark {ts : List Token} {e : ParseError} (h : Unpaired ts e) :
    ∃ t ∈ ts, t.kind = .punctuation ∧ e.span = t.span := by
  have hkind : ∀ (t : Token) (mark : String), t.isMark mark = true → t.kind = .punctuation :=
    fun t mark hmark => of_decide_eq_true (Bool.and_eq_true_iff.1 hmark).1
  cases h with
  | closing heq hmark =>
      exact ⟨_, heq ▸ List.mem_append_right _ List.mem_cons_self, hkind _ _ hmark, rfl⟩
  | opening _ heq hmark =>
      exact ⟨_, heq ▸ List.mem_append_right _ List.mem_cons_self, hkind _ _ hmark, rfl⟩

/-- The place of a fault is one of the text. What stands there is blank only if
    the whole text is. -/
theorem Fault.slice?_span {sql : String} {e : ParseError} (h : Fault sql e) :
    ∃ covered, e.span.slice? sql = some covered ∧ (Text.trim covered.toList = [] ↔
      ∀ c ∈ sql.toList, CharClass.isBlank c = true) := by
  cases h with
  | @lexical before after t cause htokens _ hcause =>
      have hkind : t.kind = .error cause := by
        unfold Token.error? at hcause
        split at hcause
        · rename_i found hfound
          rw [hfound, Option.some.inj hcause]
        · simp only [reduceCtorEq] at hcause
      have ht : t ∈ tokenize sql := htokens ▸ List.mem_append_right _ List.mem_cons_self
      exact slice?_of_visible ht (by rw [hkind]; exact TokenKind.noConfusion)
        (by rw [hkind]; exact TokenKind.noConfusion)
  | empty => exact ⟨sql, slice?_self sql, Text.trim_eq_nil_iff⟩
  | unpaired _ htokens _ hunpaired =>
      rcases hunpaired.exists_mark with ⟨t, ht, hkind, hspan⟩
      have ht : t ∈ tokenize sql :=
        htokens ▸ List.mem_append_right _ (List.mem_append_left _ ht)
      rw [hspan]
      exact slice?_of_visible ht (by rw [hkind]; exact TokenKind.noConfusion)
        (by rw [hkind]; exact TokenKind.noConfusion)

namespace Cli

theorem explain_parse {sql covered : String} {e : ParseError}
    (hcovered : e.span.slice? sql = some covered) :
    explain sql (.parse e) =
      (if Text.trim covered.toList = [] then []
        else ["Invalid SQL near '" ++ String.ofList (Text.trim covered.toList) ++ "'"]) ++
        [(ClassifyError.parse e).message, e.toText] := by
  simp only [explain, nearText?, hcovered, Option.bind_some, List.isEmpty_iff]
  split <;> rfl

/-- Whatever is asked, a text without a tree is answered with what is wrong. -/
theorem answer_of_ofText_error {sql : String} {e : ParseError} (h : Group.ofText sql = .error e)
    (inv : Invocation) : inv.answer sql = .error (explain sql (.parse e)) := by
  rw [Invocation.answer]
  cases inv.question with
  | classify => simp only [SqlGist.classify, h]
  | tag => simp only [statementTag, h, Except.map]
  | tree => simp only [h]

end Cli

/-- A text has a tree exactly if it has no fault, and its fault is what is
    reported. The place of a fault is one of the text, and whatever is asked
    about the text, the answer begins with what stands there, unless the text is
    nothing but blanks. -/
theorem ofText_diagnosis (sql : String) :
    ((∃ root, Group.ofText sql = .ok root) ↔
      (∀ t ∈ tokenize sql, t.error? = none) ∧
        ∃ before statement after, tokenize sql = before ++ (statement ++ after) ∧
          IsFirstStatement before statement after ∧ AllOpened statement ∧ AllClosed statement) ∧
      (∀ e, Group.ofText sql = .error e ↔ Fault sql e) ∧
        ∀ e, Fault sql e → ∃ covered, e.span.slice? sql = some covered ∧ ∀ inv : Cli.Invocation,
          ((∀ c ∈ sql.toList, CharClass.isBlank c = true) →
            inv.answer sql = .error [(ClassifyError.parse e).message, e.toText]) ∧
          ((¬∀ c ∈ sql.toList, CharClass.isBlank c = true) →
            inv.answer sql =
              .error ["Invalid SQL near '" ++ String.ofList (Text.trim covered.toList) ++ "'",
                (ClassifyError.parse e).message, e.toText]) := by
  refine ⟨exists_ofText_iff, fun e => ofText_eq_error_iff, fun e he => ?_⟩
  rcases he.slice?_span with ⟨covered, hcovered, hblank⟩
  refine ⟨covered, hcovered, fun inv => ?_⟩
  rw [Cli.answer_of_ofText_error (ofText_eq_error_iff.2 he), Cli.explain_parse hcovered]
  refine ⟨fun hall => ?_, fun hsome => ?_⟩
  · rw [if_pos (hblank.2 hall), List.nil_append]
  · rw [if_neg (mt hblank.1 hsome), List.singleton_append]

end SqlGist
