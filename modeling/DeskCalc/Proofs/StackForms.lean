import DeskCalc.Proofs.StackHistory

/-!
# Stacks in lists and in arrays

The calculator has its operands in a list, the top first. They may as well stand in an array
that grows at its end: then the top is in the last cell, and a depth counts cells from the end.
Both forms obey the rules of a stack, so both follow their history, and no sequence of
operations tells them apart. There is always room for one more cell here.
-/

namespace DeskCalc

open StackOperation (Answers AnswersAll LatestFirst)

/-- A form in which stacks are kept, with the operands from top to bottom as its view. -/
structure StackForm (α : Type) where
  State : Type
  empty : State
  carryOut : State → StackOperation α → State × Except StackError (StackAnswer α)
  toList : State → List α

namespace StackForm

variable {α : Type} (F : StackForm α)

/-- Carry out operations one after another: the state that they leave, and all answers. -/
def carryOutAll (s : F.State) :
    List (StackOperation α) → F.State × List (Except StackError (StackAnswer α))
  | [] => (s, [])
  | op :: ops =>
    let (next, answer) := F.carryOut s op
    let (last, answers) := carryOutAll next ops
    (last, answer :: answers)

@[simp] theorem carryOutAll_nil (s : F.State) : F.carryOutAll s [] = (s, []) := rfl

theorem carryOutAll_cons (s : F.State) (op : StackOperation α)
    (ops : List (StackOperation α)) :
    F.carryOutAll s (op :: ops) =
      ((F.carryOutAll (F.carryOut s op).1 ops).1,
        (F.carryOut s op).2 :: (F.carryOutAll (F.carryOut s op).1 ops).2) := rfl

theorem carryOutAll_append (s : F.State) (ops later : List (StackOperation α)) :
    F.carryOutAll s (ops ++ later) =
      ((F.carryOutAll (F.carryOutAll s ops).1 later).1,
        (F.carryOutAll s ops).2 ++ (F.carryOutAll (F.carryOutAll s ops).1 later).2) := by
  induction ops generalizing s with
  | nil => rfl
  | cons op ops ih => simp only [List.cons_append, carryOutAll_cons, ih]

/-- The operands make up the whole state, and each operation obeys the rules. -/
structure Lawful : Prop where
  toList_injective : Function.Injective F.toList
  toList_empty : F.toList F.empty = []
  answers : ∀ s op, Answers (F.toList s) op (F.carryOut s op).2 (F.toList (F.carryOut s op).1)

/-- What a stack does in all sequences of operations. -/
structure FollowsHistory : Prop where
  /-- After every sequence of operations the operands from top to bottom are those that were
  added and not taken away since, each once and the latest first. -/
  held : ∀ ops, LatestFirst ops (F.toList (F.carryOutAll F.empty ops).1)
  dump : ∀ s, F.carryOut s .dump = (s, .ok (.operands (F.toList s)))
  /-- Every answer and every error is the one for the operands held at the time. -/
  answers : ∀ s ops, AnswersAll (F.toList s) ops (F.carryOutAll s ops).2
    (F.toList (F.carryOutAll s ops).1)
  peek : ∀ s depth, (F.carryOut s (.peek depth)).2 =
    if h : depth < (F.toList s).length then .ok (.operand (F.toList s)[depth])
    else if (F.toList s).length = 0 then .error .empty
    else .error (.outOfRange depth (F.toList s).length)
  /-- An operation that fails leaves the stack as it was, and so does one that only looks. -/
  failed : ∀ s op cause, (F.carryOut s op).2 = .error cause → (F.carryOut s op).1 = s
  read : ∀ s op, op.reads = true → (F.carryOut s op).1 = s
  /-- What is pushed comes back in reverse order, and leaves the stack as it was. -/
  pushed : ∀ s (l : List α),
    F.carryOutAll s (l.map .push ++ List.replicate l.length .pop) =
      (s, l.map (fun _ => .ok .done) ++ l.reverse.map fun a => .ok (.operand a))
  /-- A duplicate is taken away by the next `pop`; without operands both fail. -/
  duplicated : ∀ s, F.carryOutAll s [.duplicate, .pop] =
    (s, match F.toList s with
      | [] => [.error .empty, .error .empty]
      | a :: _ => [.ok .done, .ok (.operand a)])

namespace Lawful

variable {F} (h : F.Lawful)
include h

theorem answersAll (s : F.State) (ops : List (StackOperation α)) :
    AnswersAll (F.toList s) ops (F.carryOutAll s ops).2 (F.toList (F.carryOutAll s ops).1) := by
  induction ops generalizing s with
  | nil => exact .nil
  | cons op ops ih => exact .cons (h.answers s op) (ih (F.carryOut s op).1)

/-- From the empty stack on, all answers are those for a list that starts empty. -/
theorem answersAll_empty (ops : List (StackOperation α)) :
    AnswersAll [] ops (F.carryOutAll F.empty ops).2
      (F.toList (F.carryOutAll F.empty ops).1) := by
  have hops := h.answersAll F.empty ops
  rw [h.toList_empty] at hops
  exact hops

/-- An operation leaves the state that the rules say, with the answer that they say. -/
theorem carryOut_eq {s t : F.State} {op : StackOperation α}
    {answer : Except StackError (StackAnswer α)}
    (hrule : Answers (F.toList s) op answer (F.toList t)) : F.carryOut s op = (t, answer) := by
  obtain ⟨hanswer, hleft⟩ := (h.answers s op).unique hrule
  exact Prod.ext (h.toList_injective hleft) hanswer

/-- What an operation put on top is taken by the next `pop`. -/
theorem pop_eq {s t : F.State} {a : α} (ht : F.toList t = a :: F.toList s) :
    F.carryOut t .pop = (s, .ok (.operand a)) :=
  h.carryOut_eq (ht ▸ .pop)

theorem carryOutAll_pushes (s : F.State) (l : List α) :
    F.carryOutAll s (l.map .push ++ List.replicate l.length .pop) =
      (s, l.map (fun _ => .ok .done) ++ l.reverse.map fun a => .ok (.operand a)) := by
  induction l generalizing s with
  | nil => rfl
  | cons a l ih =>
      -- What is pushed first is taken by the last `pop`, after all the others have gone.
      obtain ⟨hdone, hpushed⟩ := (h.answers s (.push a)).unique .push
      rw [List.length_cons, List.replicate_succ', ← List.append_assoc, List.map_cons,
        List.cons_append, List.cons_append, carryOutAll_cons, carryOutAll_append, ih,
        carryOutAll_cons, h.pop_eq hpushed, hdone]
      simp

theorem carryOutAll_duplicate (s : F.State) : F.carryOutAll s [.duplicate, .pop] =
    (s, match F.toList s with
      | [] => [.error .empty, .error .empty]
      | a :: _ => [.ok .done, .ok (.operand a)]) := by
  have hduplicate := h.answers s .duplicate
  cases hs : F.toList s with
  | nil =>
      have hnone : F.carryOut s .duplicate = (s, .error .empty) :=
        h.carryOut_eq (hs ▸ .duplicateEmpty)
      have hnone' : F.carryOut s .pop = (s, .error .empty) := h.carryOut_eq (hs ▸ .popEmpty)
      rw [carryOutAll_cons, hnone, carryOutAll_cons, hnone']
      rfl
  | cons a rest =>
      rw [hs] at hduplicate
      obtain ⟨hdone, hleft⟩ := hduplicate.unique .duplicate
      rw [carryOutAll_cons, carryOutAll_cons, h.pop_eq (hs ▸ hleft), hdone]
      rfl

theorem followsHistory : F.FollowsHistory where
  held ops := LatestFirst.nil.append (h.answersAll_empty ops)
  dump _ := h.carryOut_eq .dump
  answers := h.answersAll
  peek s depth := (h.answers s (.peek depth)).peek_eq
  failed s op _ hcause := h.toList_injective ((hcause ▸ h.answers s op).of_error)
  read s op hop := h.toList_injective ((h.answers s op).of_reads hop)
  pushed := h.carryOutAll_pushes
  duplicated := h.carryOutAll_duplicate

/-- Two lawful forms answer alike throughout. -/
theorem answers_eq {G : StackForm α} (hG : G.Lawful) (ops : List (StackOperation α)) :
    (F.carryOutAll F.empty ops).2 = (G.carryOutAll G.empty ops).2 :=
  ((h.answersAll_empty ops).unique (hG.answersAll_empty ops)).1

end Lawful

end StackForm

namespace Stack

variable {α : Type}

/-- Carry out one operation. One that fails leaves the stack as it is. -/
def carryOut (s : Stack α) : StackOperation α → Stack α × Except StackError (StackAnswer α)
  | .push a => (s.push a, .ok .done)
  | .pop =>
    match s.pop with
    | .error cause => (s, .error cause)
    | .ok (a, rest) => (rest, .ok (.operand a))
  | .peek depth => (s, (s.peek depth).map .operand)
  | .duplicate =>
    match s.duplicate with
    | .error cause => (s, .error cause)
    | .ok copied => (copied, .ok .done)
  | .clear =>
    match s.clear with
    | .error cause => (s, .error cause)
    | .ok (released, left) => (left, .ok (.count released))
  | .size => (s, .ok (.count s.size))
  | .isEmpty => (s, .ok (.verdict s.isEmpty))
  | .dump => (s, .ok (.operands s.toList))

/-- Stacks as the calculator has them. -/
def form (α : Type) : StackForm α where
  State := Stack α
  empty := empty
  carryOut := carryOut
  toList := toList

theorem peek_of_some {s : Stack α} {depth : Nat} {a : α} (h : s.toList[depth]? = some a) :
    s.peek depth = .ok a := by
  simp only [peek, h]

theorem peek_of_none {s : Stack α} {depth : Nat} (h : s.toList[depth]? = none) :
    s.peek depth = .error (if s.isEmpty then .empty else .outOfRange depth s.size) := by
  simp only [peek, h]

/-- Each operation obeys the rules for the operands of the stack. -/
theorem answers_carryOut (s : Stack α) (op : StackOperation α) :
    Answers s.toList op (s.carryOut op).2 (s.carryOut op).1.toList := by
  obtain ⟨operands⟩ := s
  cases op with
  | push a => exact .push
  | pop =>
      cases operands with
      | nil => exact .popEmpty
      | cons a rest => exact .pop
  | peek depth =>
      rw [carryOut]
      cases hdepth : operands[depth]? with
      | some a =>
          rw [peek_of_some hdepth]
          exact .peek hdepth
      | none =>
          rw [peek_of_none hdepth]
          cases operands with
          | nil => exact .peekEmpty
          | cons a rest =>
              exact .peekBelow (List.cons_ne_nil a rest) (List.getElem?_eq_none_iff.mp hdepth)
  | duplicate =>
      cases operands with
      | nil => exact .duplicateEmpty
      | cons a rest => exact .duplicate
  | clear =>
      cases operands with
      | nil => exact .clearEmpty
      | cons a rest => exact .clear (List.cons_ne_nil a rest)
  | size => exact .size
  | isEmpty => exact .isEmpty
  | dump => exact .dump

theorem lawful_form (α : Type) : (form α).Lawful where
  toList_injective := fun ⟨_⟩ ⟨_⟩ h => congrArg mk h
  toList_empty := rfl
  answers := answers_carryOut

end Stack

namespace ArrayStack

variable {α : Type}

/-- The operands from top to bottom, with the top in the last cell. -/
def toList (cells : Array α) : List α := cells.toList.reverse

@[simp] theorem toList_push (cells : Array α) (a : α) :
    toList (cells.push a) = a :: toList cells := by
  rw [toList, Array.toList_push, List.reverse_concat]
  rfl

@[simp] theorem length_toList (cells : Array α) : (toList cells).length = cells.size :=
  List.length_reverse

/-- Shorten the array by its last cell, if it has one. -/
def takeLast (cells : Array α) : Array α × Option α := (cells.pop, cells.back?)

def pop (cells : Array α) : Array α × Except StackError α :=
  match takeLast cells with
  | (left, some a) => (left, .ok a)
  | (left, none) => (left, .error .empty)

/-- The operand at `depth`, counted from the last cell. Neither difference of the position
falls below zero. -/
def peek (cells : Array α) (depth : Nat) : Except StackError α :=
  if hne : cells.size = 0 then .error .empty
  else if h : cells.size ≤ depth then .error (.outOfRange depth cells.size)
  else .ok cells[cells.size - 1 - depth]

def duplicate (cells : Array α) : Array α × Except StackError Unit :=
  match peek cells 0 with
  | .error cause => (cells, .error cause)
  | .ok top => (cells.push top, .ok ())

def clear (cells : Array α) : Array α × Except StackError Nat :=
  if cells.isEmpty then (cells, .error .alreadyCleared) else (#[], .ok cells.size)

def carryOut (cells : Array α) :
    StackOperation α → Array α × Except StackError (StackAnswer α)
  | .push a => (cells.push a, .ok .done)
  | .pop =>
    let (left, answer) := pop cells
    (left, answer.map .operand)
  | .peek depth => (cells, (peek cells depth).map .operand)
  | .duplicate =>
    let (left, answer) := duplicate cells
    (left, answer.map fun _ => .done)
  | .clear =>
    let (left, answer) := clear cells
    (left, answer.map .count)
  | .size => (cells, .ok (.count cells.size))
  | .isEmpty => (cells, .ok (.verdict cells.isEmpty))
  | .dump => (cells, .ok (.operands (toList cells)))

/-- Stacks in arrays. -/
def form (α : Type) : StackForm α where
  State := Array α
  empty := #[]
  carryOut := carryOut
  toList := toList

theorem toList_getElem? {cells : Array α} {depth : Nat} (h : depth < cells.size) :
    (toList cells)[depth]? = some cells[cells.size - 1 - depth] := by
  rw [toList, List.getElem?_reverse h, Array.length_toList, Array.getElem?_toList]
  exact Array.getElem?_eq_getElem _

theorem eq_empty_or_push (cells : Array α) :
    cells = #[] ∨ ∃ (below : Array α) (a : α), cells = below.push a := by
  by_cases h : cells = #[]
  · exact Or.inl h
  · exact Or.inr (Array.exists_push_of_ne_empty h)

theorem peek_push_zero (cells : Array α) (a : α) : peek (cells.push a) 0 = .ok a := by
  simp [peek]

/-- Each operation on the cells obeys the rules for the operands in them. -/
theorem answers_carryOut (cells : Array α) (op : StackOperation α) :
    Answers (toList cells) op (carryOut cells op).2 (toList (carryOut cells op).1) := by
  cases op with
  | push a =>
      change Answers (toList cells) _ _ (toList (cells.push a))
      rw [toList_push]
      exact .push
  | pop =>
      rcases eq_empty_or_push cells with rfl | ⟨below, a, rfl⟩
      · exact .popEmpty
      · have hpop : pop (below.push a) = (below, .ok a) := by simp [pop, takeLast]
        rw [carryOut, hpop, toList_push]
        exact .pop
  | peek depth =>
      change Answers (toList cells) _ ((peek cells depth).map _) (toList cells)
      rw [peek]
      split
      · next hsize =>
          obtain rfl := Array.eq_empty_of_size_eq_zero hsize
          exact .peekEmpty
      · next hsize =>
          split
          · next hdepth =>
              rw [← length_toList] at hsize hdepth ⊢
              exact .peekBelow (mt List.length_eq_zero_iff.mpr hsize) hdepth
          · next hdepth => exact .peek (toList_getElem? (Nat.not_le.mp hdepth))
  | duplicate =>
      rcases eq_empty_or_push cells with rfl | ⟨below, a, rfl⟩
      · exact .duplicateEmpty
      · have hduplicate : duplicate (below.push a) = ((below.push a).push a, .ok ()) := by
          rw [duplicate, peek_push_zero]
        rw [carryOut, hduplicate]
        change Answers _ _ (.ok .done) (toList ((below.push a).push a))
        simp only [toList_push]
        exact .duplicate
  | clear =>
      rcases eq_empty_or_push cells with rfl | ⟨below, a, rfl⟩
      · exact .clearEmpty
      · have hclear : clear (below.push a) = (#[], .ok (toList (below.push a)).length) := by
          simp [clear]
        rw [carryOut, hclear]
        refine .clear ?_
        rw [toList_push]
        exact List.cons_ne_nil a _
  | size =>
      change Answers _ _ (.ok (.count cells.size)) _
      rw [← length_toList]
      exact .size
  | isEmpty =>
      have hempty : cells.isEmpty = (toList cells).isEmpty := by simp [toList]
      change Answers _ _ (.ok (.verdict cells.isEmpty)) _
      rw [hempty]
      exact .isEmpty
  | dump => exact .dump

theorem lawful_form (α : Type) : (form α).Lawful where
  toList_injective := fun _ _ h => Array.toList_inj.mp (List.reverse_injective h)
  toList_empty := rfl
  answers := answers_carryOut

end ArrayStack

/-- Stacks as the calculator has them and stacks in arrays follow their history, and no
sequence of operations tells them apart. -/
theorem Stack.describedByHistory (α : Type) :
    (form α).FollowsHistory ∧ (ArrayStack.form α).FollowsHistory ∧
      ∀ ops, ((form α).carryOutAll empty ops).2 = ((ArrayStack.form α).carryOutAll #[] ops).2 :=
  ⟨(lawful_form α).followsHistory, (ArrayStack.lawful_form α).followsHistory,
    (lawful_form α).answers_eq (ArrayStack.lawful_form α)⟩

example : ((ArrayStack.form Nat).carryOutAll #[]
      [.pop, .push 4, .push 5, .duplicate, .pop, .dump, .peek 1, .peek 2, .clear, .clear]).2 =
    [.error .empty, .ok .done, .ok .done, .ok .done, .ok (.operand 5), .ok (.operands [5, 4]),
      .ok (.operand 4), .error (.outOfRange 2 2), .ok (.count 2), .error .alreadyCleared] := rfl

end DeskCalc
