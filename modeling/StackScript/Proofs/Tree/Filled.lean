import StackScript.Proofs.Tree.Literals

/-!
# Trees without gaps

A tree is filled if there is an expression wherever code for one is generated, and if its operators
are known. The reader accepts no other tree (`Tree.read_filled`), and none whose literals are not
shaped (`Tree.read_shaped`). Entering the literals of a tree into a store changes nothing else of
it.
-/

namespace StackScript

section Filled

variable {ν : Type}

mutual

/-- An expression that is there, with all of its operands and a known operator. -/
def Expr.Filled : Expr ν → Prop
  | .absent => False
  | .literal _ _ => True
  | .load _ _ => True
  | .element _ _ row col => row.Filled ∧ col.Filled
  | .newArray _ rows cols _ => rows.Filled ∧ cols.Filled
  | .call _ _ args => Expr.AllFilled args
  | .binary _ op left right => op ∈ Operator.all ∧ left.Filled ∧ right.Filled
  | .negation _ operand => operand.Filled

/-- Expressions that are all filled. -/
def Expr.AllFilled : List (Expr ν) → Prop
  | [] => True
  | e :: es => e.Filled ∧ Expr.AllFilled es

end

mutual

/-- A statement with all of its expressions. It may itself be absent, and so may the value that is
given back. -/
def Stmt.Filled : Stmt ν → Prop
  | .absent => True
  | .block _ body => Stmt.AllFilled body
  | .declare _ _ value => value.Filled
  | .assign _ _ value => value.Filled
  | .assignElement _ _ row col value => row.Filled ∧ col.Filled ∧ value.Filled
  | .branch _ cond yes no => cond.Filled ∧ yes.Filled ∧ no.Filled
  | .whileLoop _ cond body => cond.Filled ∧ body.Filled
  | .countLoop _ _ count body => count.Filled ∧ body.Filled
  | .leave _ => True
  | .giveBack _ value => value.isAbsent = true ∨ value.Filled
  | .define _ _ _ body => body.Filled
  | .perform _ _ args => Expr.AllFilled args

/-- Statements that are all filled. -/
def Stmt.AllFilled : List (Stmt ν) → Prop
  | [] => True
  | s :: ss => s.Filled ∧ Stmt.AllFilled ss

end

/-- A tree whose statements are filled. -/
def Tree.Filled (t : Tree ν) : Prop := Stmt.AllFilled t.body

/-- One of some filled expressions is filled. -/
theorem Expr.AllFilled.getD {es : List (Expr ν)} (h : Expr.AllFilled es) {k : Nat}
    (hk : k < es.length) : (es.getD k .absent).Filled := by
  induction es generalizing k with
  | nil => cases hk
  | cons e es ih =>
    cases k with
    | zero => exact h.1
    | succ k => exact ih h.2 (Nat.lt_of_succ_lt_succ hk)

end Filled

/-! ## Entering the literals -/

mutual

/-- A filled expression is stored as one. -/
theorem Expr.Filled.store (e : Expr Datum) (h : e.Filled) (st : Store) : (e.store st).1.Filled := by
  match e with
  | .absent => exact h
  | .literal _ _ => trivial
  | .load _ _ => trivial
  | .element _ _ row col => exact ⟨h.1.store row st, h.2.store col _⟩
  | .newArray _ rows cols _ => exact ⟨h.1.store rows st, h.2.store cols _⟩
  | .call _ _ args => exact Expr.AllFilled.store args h st
  | .binary _ _ left right => exact ⟨h.1, h.2.1.store left st, h.2.2.store right _⟩
  | .negation _ operand => exact Expr.Filled.store operand h st

/-- Filled arguments are stored as such. -/
theorem Expr.AllFilled.store (es : List (Expr Datum)) (h : Expr.AllFilled es) (st : Store) :
    Expr.AllFilled (Expr.storeAll st es).1 := by
  match es with
  | [] => trivial
  | e :: es => exact ⟨h.1.store e st, Expr.AllFilled.store es h.2 _⟩

end

mutual

/-- A filled statement is stored as one. -/
theorem Stmt.Filled.store (s : Stmt Datum) (h : s.Filled) (st : Store) : (s.store st).1.Filled := by
  match s with
  | .absent => trivial
  | .block _ body => exact Stmt.AllFilled.store body h st
  | .declare _ _ value => exact Expr.Filled.store value h st
  | .assign _ _ value => exact Expr.Filled.store value h st
  | .assignElement _ _ row col value =>
    exact ⟨h.1.store row st, h.2.1.store col _, h.2.2.store value _⟩
  | .branch _ cond yes no => exact ⟨h.1.store cond st, h.2.1.store yes _, h.2.2.store no _⟩
  | .whileLoop _ cond body => exact ⟨h.1.store cond st, h.2.store body _⟩
  | .countLoop _ _ count body => exact ⟨h.1.store count st, h.2.store body _⟩
  | .leave _ => trivial
  | .giveBack _ value =>
    rcases h with habsent | h
    · cases value with
      | absent => exact .inl rfl
      | _ => cases habsent
    · exact .inr (Expr.Filled.store value h st)
  | .define _ _ _ body => exact Stmt.Filled.store body h st
  | .perform _ _ args => exact Expr.AllFilled.store args h st

/-- Filled statements are stored as such. -/
theorem Stmt.AllFilled.store (ss : List (Stmt Datum)) (h : Stmt.AllFilled ss) (st : Store) :
    Stmt.AllFilled (Stmt.storeAll st ss).1 := by
  match ss with
  | [] => trivial
  | s :: ss => exact ⟨h.1.store s st, Stmt.AllFilled.store ss h.2 _⟩

end

/-- Entering the literals of a filled tree leaves it filled. -/
theorem Tree.Filled.store {t : Tree Datum} (h : t.Filled) (st : Store) : (t.store st).1.Filled :=
  Stmt.AllFilled.store t.body h st

/-! ## Trees that were read -/

/-- One of some operands that were read. -/
theorem Expr.read_getD {es : List (Expr Datum)} {count : Nat}
    (h : es.length = count ∧ Expr.AllFilled es ∧ ∀ d ∈ Expr.literalsAll es, d.Shaped) (k : Nat)
    (hk : k < count) :
    (es.getD k .absent).Filled ∧ ∀ d ∈ (es.getD k .absent).literals, d.Shaped :=
  ⟨h.2.1.getD (h.1.symm ▸ hk), fun d hd => h.2.2 d (Expr.literals_getD hd)⟩

mutual

/-- The expression that a node stands for is filled, if the node is there, and its literals are
shaped. -/
theorem Node.expr_read (n : Node) {e : Expr Datum} (h : n.expr = .ok e) :
    (n.isAbsent = false → e.Filled) ∧ ∀ d ∈ e.literals, d.Shaped := by
  match n with
  | .absent =>
    cases h
    -- A node that is not there is read as no expression, which is not filled.
    exact ⟨Bool.noConfusion, List.forall_mem_nil _⟩
  | .fields kind pos name op params value nodes =>
    unfold Node.expr at h
    simp only at h
    split at h
    case h_1 =>
      split at h
      · cases h
      · split at h
        · rename_i d hd
          cases h
          exact ⟨fun _ => trivial, List.forall_mem_singleton.mpr (NodeValue.datum_shaped _ hd)⟩
        · cases h
    case h_2 =>
      obtain ⟨_, -, h⟩ := except_bind_eq_ok h
      cases h
      exact ⟨fun _ => trivial, List.forall_mem_nil _⟩
    case h_3 =>
      obtain ⟨_, -, h⟩ := except_bind_eq_ok h
      obtain ⟨es, hes, h⟩ := except_bind_eq_ok h
      have hes := Expr.read_getD (Node.operands_read nodes hes)
      cases h
      have hrow := hes 0 (by decide)
      have hcol := hes 1 (by decide)
      exact ⟨fun _ => ⟨hrow.1, hcol.1⟩, List.forall_mem_append.mpr ⟨hrow.2, hcol.2⟩⟩
    case h_4 =>
      obtain ⟨es, hes, h⟩ := except_bind_eq_ok h
      have hes := Expr.read_getD (Node.operands_read nodes hes)
      split at h
      · rename_i d hd
        cases h
        have hrows := hes 0 (by decide)
        have hcols := hes 1 (by decide)
        exact ⟨fun _ => ⟨hrows.1, hcols.1⟩, List.forall_mem_append.mpr
          ⟨List.forall_mem_append.mpr ⟨hrows.2, hcols.2⟩,
            List.forall_mem_singleton.mpr (NodeValue.datum_shaped _ hd)⟩⟩
      · cases h
    case h_5 =>
      obtain ⟨_, -, h⟩ := except_bind_eq_ok h
      obtain ⟨es, hes, h⟩ := except_bind_eq_ok h
      obtain ⟨-, hfilled, hshaped⟩ := Node.operands_read nodes hes
      cases h
      exact ⟨fun _ => hfilled, hshaped⟩
    case h_6 =>
      split at h
      · cases h
      · rename_i o ho
        obtain ⟨es, hes, h⟩ := except_bind_eq_ok h
        have hes := Expr.read_getD (Node.operands_read nodes hes)
        cases h
        have hleft := hes 0 (by decide)
        have hright := hes 1 (by decide)
        -- The operator was found among all that can be written, so it is one of them.
        exact ⟨fun _ => ⟨List.mem_of_find?_eq_some ho, hleft.1, hright.1⟩,
          List.forall_mem_append.mpr ⟨hleft.2, hright.2⟩⟩
    case h_7 =>
      obtain ⟨es, hes, h⟩ := except_bind_eq_ok h
      have hes := Expr.read_getD (Node.operands_read nodes hes)
      cases h
      have hoperand := hes 0 (by decide)
      exact ⟨fun _ => hoperand.1, hoperand.2⟩
    case h_8 => cases h

/-- Operands are as many as are asked for, filled, and their literals are shaped. -/
theorem Node.operands_read (ns : List Node) {pos : Position} {kind : Bytes} {i count : Nat}
    {es : List (Expr Datum)} (h : Node.operands pos kind i count ns = .ok es) :
    es.length = count ∧ Expr.AllFilled es ∧ ∀ d ∈ Expr.literalsAll es, d.Shaped := by
  match ns with
  | [] =>
    unfold Node.operands at h
    split at h
    · rename_i hcount
      cases h
      exact ⟨hcount.symm, trivial, List.forall_mem_nil _⟩
    · cases h
  | n :: ns =>
    unfold Node.operands at h
    split at h
    · rename_i hcount
      cases h
      exact ⟨hcount.symm, trivial, List.forall_mem_nil _⟩
    · rename_i hcount
      split at h
      · cases h
      · rename_i hpresent
        -- An operand that is not there is an error, so this one is.
        obtain ⟨e, he, h⟩ := except_bind_eq_ok h
        obtain ⟨es, hes, h⟩ := except_bind_eq_ok h
        obtain ⟨hfilled, hshaped⟩ := n.expr_read he
        obtain ⟨hlength, hfilled', hshaped'⟩ := Node.operands_read ns hes
        cases h
        refine ⟨?_, ⟨hfilled (by simpa using hpresent), hfilled'⟩,
          List.forall_mem_append.mpr ⟨hshaped, hshaped'⟩⟩
        rw [List.length_cons, hlength]
        omega

end

/-- The first operand is filled, and its literals are shaped. -/
theorem Node.firstOperand_read {pos : Position} {kind : Bytes} {nodes : List Node}
    {e : Expr Datum} (h : Node.firstOperand pos kind nodes = .ok e) :
    e.Filled ∧ ∀ d ∈ e.literals, d.Shaped := by
  obtain ⟨es, hes, h⟩ := except_bind_eq_ok h
  cases h
  exact Expr.read_getD (Node.operands_read nodes hes) 0 Nat.one_pos

mutual

/-- The statement that a node stands for is filled, and its literals are shaped. -/
theorem Node.stmt_read (n : Node) {s : Stmt Datum} (h : n.stmt = .ok s) :
    s.Filled ∧ ∀ d ∈ s.literals, d.Shaped := by
  match n with
  | .absent =>
    cases h
    exact ⟨trivial, List.forall_mem_nil _⟩
  | .fields kind pos name op params value nodes =>
    unfold Node.stmt at h
    split at h
    case h_1 =>
      obtain ⟨body, hbody, h⟩ := except_bind_eq_ok h
      cases h
      exact Node.stmts_read nodes hbody
    case h_2 | h_3 =>
      obtain ⟨_, -, h⟩ := except_bind_eq_ok h
      obtain ⟨value, hvalue, h⟩ := except_bind_eq_ok h
      cases h
      exact Node.firstOperand_read hvalue
    case h_4 =>
      obtain ⟨_, -, h⟩ := except_bind_eq_ok h
      obtain ⟨es, hes, h⟩ := except_bind_eq_ok h
      have hes := Expr.read_getD (Node.operands_read nodes hes)
      cases h
      have hrow := hes 0 (by decide)
      have hcol := hes 1 (by decide)
      have hvalue := hes 2 (by decide)
      exact ⟨⟨hrow.1, hcol.1, hvalue.1⟩, List.forall_mem_append.mpr
        ⟨List.forall_mem_append.mpr ⟨hrow.2, hcol.2⟩, hvalue.2⟩⟩
    case h_5 =>
      obtain ⟨cond, hcond, h⟩ := except_bind_eq_ok h
      obtain ⟨yes, hyes, h⟩ := except_bind_eq_ok h
      obtain ⟨no, hno, h⟩ := except_bind_eq_ok h
      obtain ⟨hcond, hcond'⟩ := Node.firstOperand_read hcond
      obtain ⟨hyes, hyes'⟩ := Node.bodyAt_read nodes hyes
      obtain ⟨hno, hno'⟩ := Node.stmtAt_read nodes hno
      cases h
      exact ⟨⟨hcond, hyes, hno⟩, List.forall_mem_append.mpr
        ⟨List.forall_mem_append.mpr ⟨hcond', hyes'⟩, hno'⟩⟩
    case h_6 | h_7 =>
      obtain ⟨cond, hcond, h⟩ := except_bind_eq_ok h
      obtain ⟨body, hbody, h⟩ := except_bind_eq_ok h
      obtain ⟨hcond, hcond'⟩ := Node.firstOperand_read hcond
      obtain ⟨hbody, hbody'⟩ := Node.bodyAt_read nodes hbody
      cases h
      exact ⟨⟨hcond, hbody⟩, List.forall_mem_append.mpr ⟨hcond', hbody'⟩⟩
    case h_8 =>
      cases h
      exact ⟨trivial, List.forall_mem_nil _⟩
    case h_9 =>
      simp only at h
      split at h
      · cases h
        exact ⟨.inl rfl, List.forall_mem_nil _⟩
      · rename_i n rest
        obtain ⟨value, hvalue, h⟩ := except_bind_eq_ok h
        obtain ⟨hfilled, hshaped⟩ := n.expr_read hvalue
        cases h
        refine ⟨?_, hshaped⟩
        -- The value may be left out, and then its node may be there all the same.
        cases n with
        | absent =>
          cases hvalue
          exact .inl rfl
        | fields _ _ _ _ _ _ _ => exact .inr (hfilled rfl)
    case h_10 =>
      obtain ⟨_, -, h⟩ := except_bind_eq_ok h
      obtain ⟨body, hbody, h⟩ := except_bind_eq_ok h
      have hread := Node.bodyAt_read nodes hbody
      cases h
      exact hread
    case h_11 =>
      obtain ⟨_, -, h⟩ := except_bind_eq_ok h
      obtain ⟨args, hargs, h⟩ := except_bind_eq_ok h
      cases h
      exact (Node.operands_read nodes hargs).2
    case h_12 => cases h

/-- Statements that are read are filled. -/
theorem Node.stmts_read (ns : List Node) {ss : List (Stmt Datum)} (h : Node.stmts ns = .ok ss) :
    Stmt.AllFilled ss ∧ ∀ d ∈ Stmt.literalsAll ss, d.Shaped := by
  match ns with
  | [] =>
    cases h
    exact ⟨trivial, List.forall_mem_nil _⟩
  | n :: ns =>
    unfold Node.stmts at h
    split at h
    · exact Node.stmts_read ns h
    · obtain ⟨s, hs, h⟩ := except_bind_eq_ok h
      obtain ⟨rest, hrest, h⟩ := except_bind_eq_ok h
      obtain ⟨hs, hs'⟩ := n.stmt_read hs
      obtain ⟨hrest, hrest'⟩ := Node.stmts_read ns hrest
      cases h
      exact ⟨⟨hs, hrest⟩, List.forall_mem_append.mpr ⟨hs', hrest'⟩⟩

/-- A body that is read is filled. -/
theorem Node.bodyAt_read (ns : List Node) {pos : Position} {kind : Bytes} {i skip : Nat}
    {s : Stmt Datum} (h : Node.bodyAt pos kind i skip ns = .ok s) :
    s.Filled ∧ ∀ d ∈ s.literals, d.Shaped := by
  match ns with
  | [] => cases h
  | n :: ns =>
    unfold Node.bodyAt at h
    split at h
    · split at h
      · cases h
      · exact n.stmt_read h
    · exact Node.bodyAt_read ns h

/-- A statement that is read is filled. -/
theorem Node.stmtAt_read (ns : List Node) {skip : Nat} {s : Stmt Datum}
    (h : Node.stmtAt skip ns = .ok s) : s.Filled ∧ ∀ d ∈ s.literals, d.Shaped := by
  match ns with
  | [] =>
    cases h
    exact ⟨trivial, List.forall_mem_nil _⟩
  | n :: ns =>
    unfold Node.stmtAt at h
    split at h
    · exact n.stmt_read h
    · exact Node.stmtAt_read ns h

end

/-- A tree that is read consists of the statements that its nodes stand for. -/
theorem Tree.stmts_of_read {s : Bytes} {t : Tree Datum} (h : Tree.read s = .ok t) :
    ∃ nodes, Node.stmts nodes = .ok t.body := by
  unfold Tree.read at h
  split at h
  · cases h
  · unfold Tree.ofNode at h
    split at h
    · cases h
    split at h
    · cases h
    split at h
    · rename_i body hbody
      cases h
      exact ⟨_, hbody⟩
    · cases h

/-- A tree that was read is filled. -/
theorem Tree.read_filled {s : Bytes} {t : Tree Datum} (h : Tree.read s = .ok t) : t.Filled := by
  obtain ⟨nodes, hbody⟩ := Tree.stmts_of_read h
  exact (Node.stmts_read nodes hbody).1

/-- The literals of a tree that was read are shaped. -/
theorem Tree.read_shaped {s : Bytes} {t : Tree Datum} (h : Tree.read s = .ok t) :
    Datum.AllShaped t.literals := by
  obtain ⟨nodes, hbody⟩ := Tree.stmts_of_read h
  exact Datum.allShaped_iff.mpr (Node.stmts_read nodes hbody).2

end StackScript
