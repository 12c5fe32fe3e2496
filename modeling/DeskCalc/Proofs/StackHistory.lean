import DeskCalc.Stack
import Mathlib.Data.List.Basic

/-!
# The history of a stack

The operations carried out on an empty stack describe by themselves what it holds: the
operands that were pushed or duplicated and that no later operation took away, the latest on
top. A stack in any form of memory follows its history if each single operation obeys the
rules for the list of its operands.

## Implementation notes

The description runs no second stack. What lies on a stack stays there as long as the
operations after it never remove more operands than they add and none of them clears the
stack, and then exactly those that they added and did not remove lie above it.
-/

namespace DeskCalc

/-- The operations on a stack. -/
inductive StackOperation (α : Type) where
  | push (a : α)
  | pop
  | peek (depth : Nat)
  /-- Push the top once more. -/
  | duplicate
  | clear
  | size
  | isEmpty
  | dump

/-- What operations answer when they do not fail. -/
inductive StackAnswer (α : Type) where
  | done
  | operand (a : α)
  | count (n : Nat)
  | verdict (b : Bool)
  /-- All operands from top to bottom. -/
  | operands (l : List α)

namespace StackOperation

variable {α : Type}

def adds : StackOperation α → Bool
  | push _ => true
  | duplicate => true
  | _ => false

def removes : StackOperation α → Bool
  | pop => true
  | _ => false

/-- Whether an operation only looks at the stack. -/
def reads : StackOperation α → Bool
  | peek _ => true
  | size => true
  | isEmpty => true
  | dump => true
  | _ => false

/-- Operations that take nothing of what lies on the stack before them, and put `depth`
operands above it. -/
structure LeavesAbove (later : List (StackOperation α)) (depth : Nat) : Prop where
  uncleared : clear ∉ later
  untouched : ∀ part, part <+: later → part.countP removes ≤ part.countP adds
  above : later.countP adds = later.countP removes + depth

mutual

/-- The operation that follows a history adds the operand `a`. A duplicate adds what the
history left on top, if anything. -/
inductive Adds : List (StackOperation α) → StackOperation α → α → Prop
  | push {before a} : Adds before (push a) a
  | duplicate {before step a} (top : HeldAt before step 0 a) : Adds before duplicate a

/-- After a history the operand `a` that its operation at `step` added lies at `depth`. -/
inductive HeldAt : List (StackOperation α) → Nat → Nat → α → Prop
  | intro {before op later depth a} (added : Adds before op a)
      (kept : LeavesAbove later depth) :
      HeldAt (before ++ op :: later) before.length depth a

end

/-- The operands that a history added and did not take away, each once and from the latest
to the earliest. -/
def LatestFirst (ops : List (StackOperation α)) (l : List α) : Prop :=
  ∃ entries : List (Nat × α), entries.map Prod.snd = l ∧
    (entries.map Prod.fst).Pairwise (· > ·) ∧
    ∀ step depth a, HeldAt ops step depth a ↔ entries[depth]? = some (step, a)

/-- The rules of a stack, by the operands from top to bottom: an operation, its answer and
the operands that it leaves. -/
inductive Answers :
    List α → StackOperation α → Except StackError (StackAnswer α) → List α → Prop
  | push {l a} : Answers l (push a) (.ok .done) (a :: l)
  | pop {a l} : Answers (a :: l) pop (.ok (.operand a)) l
  | popEmpty : Answers [] pop (.error .empty) []
  | peek {l depth a} (h : l[depth]? = some a) : Answers l (peek depth) (.ok (.operand a)) l
  | peekEmpty {depth} : Answers [] (peek depth) (.error .empty) []
  | peekBelow {l depth} (hne : l ≠ []) (h : l.length ≤ depth) :
      Answers l (peek depth) (.error (.outOfRange depth l.length)) l
  | duplicate {a l} : Answers (a :: l) duplicate (.ok .done) (a :: a :: l)
  | duplicateEmpty : Answers [] duplicate (.error .empty) []
  | clear {l} (hne : l ≠ []) : Answers l clear (.ok (.count l.length)) []
  | clearEmpty : Answers [] clear (.error .alreadyCleared) []
  | size {l} : Answers l size (.ok (.count l.length)) l
  | isEmpty {l} : Answers l isEmpty (.ok (.verdict l.isEmpty)) l
  | dump {l} : Answers l dump (.ok (.operands l)) l

/-- A sequence of operations, each by the rules, with all answers. -/
inductive AnswersAll : List α → List (StackOperation α) →
    List (Except StackError (StackAnswer α)) → List α → Prop
  | nil {l} : AnswersAll l [] [] l
  | cons {l op answer m ops answers n} (first : Answers l op answer m)
      (rest : AnswersAll m ops answers n) : AnswersAll l (op :: ops) (answer :: answers) n

theorem of_adds {op : StackOperation α} (h : op.adds = true) :
    op.removes = false ∧ op ≠ clear := by
  cases op <;> simp_all [adds, removes]

theorem of_reads {op : StackOperation α} (h : op.reads = true) :
    op.adds = false ∧ op.removes = false ∧ op ≠ clear := by
  cases op <;> simp_all [adds, removes, reads]

theorem leavesAbove_nil : LeavesAbove ([] : List (StackOperation α)) 0 where
  uncleared := List.not_mem_nil
  untouched part hpart := by
    rw [List.prefix_nil.mp hpart]
    exact Nat.le_refl _
  above := rfl

theorem countP_concat (p : StackOperation α → Bool) (ops : List (StackOperation α))
    (op : StackOperation α) : (ops ++ [op]).countP p = ops.countP p + (p op).toNat := by
  rw [List.countP_append]
  cases h : p op with
  | true => simp [h]
  | false => simp [h]

/-- One operation more: it must not clear the stack, and the depth changes by what it adds
and removes. -/
theorem leavesAbove_concat {later : List (StackOperation α)} {op : StackOperation α}
    {next : Nat} :
    LeavesAbove (later ++ [op]) next ↔ op ≠ clear ∧
      ∃ depth, LeavesAbove later depth ∧ next + op.removes.toNat = depth + op.adds.toNat := by
  constructor
  · rintro ⟨hclear, huntouched, habove⟩
    have hle := huntouched later (List.prefix_append later [op])
    rw [countP_concat, countP_concat] at habove
    refine ⟨fun h => hclear (h ▸ List.mem_concat_self),
      later.countP adds - later.countP removes, ⟨?_, ?_, ?_⟩, ?_⟩
    · exact fun h => hclear (List.mem_append_left [op] h)
    · exact fun part hpart => huntouched part (hpart.trans (List.prefix_append later [op]))
    · omega
    · omega
  · rintro ⟨hne, depth, ⟨hclear, huntouched, habove⟩, hnext⟩
    have hcount : (later ++ [op]).countP adds = (later ++ [op]).countP removes + next := by
      rw [countP_concat, countP_concat]
      omega
    refine ⟨?_, fun part hpart => ?_, hcount⟩
    · intro h
      rcases List.mem_append.mp h with h | h
      · exact hclear h
      · exact hne (List.mem_singleton.mp h).symm
    · rcases List.prefix_concat_iff.mp hpart with rfl | hpart
      · omega
      · exact huntouched part hpart

theorem Adds.adds {before : List (StackOperation α)} {op : StackOperation α} {a : α}
    (h : Adds before op a) : op.adds = true := by
  cases h <;> rfl

theorem adds_push_iff {before : List (StackOperation α)} {a b : α} :
    Adds before (.push a) b ↔ b = a := by
  constructor
  · rintro ⟨⟩
    rfl
  · rintro rfl
    exact .push

theorem adds_duplicate_iff {before : List (StackOperation α)} {a : α} :
    Adds before duplicate a ↔ ∃ step, HeldAt before step 0 a := by
  constructor
  · intro h
    cases h with
    | duplicate top => exact ⟨_, top⟩
  · rintro ⟨step, top⟩
    exact .duplicate top

theorem heldAt_iff {ops : List (StackOperation α)} {step depth : Nat} {a : α} :
    HeldAt ops step depth a ↔ ∃ before op later, ops = before ++ op :: later ∧
      step = before.length ∧ Adds before op a ∧ LeavesAbove later depth := by
  constructor
  · rintro ⟨hadded, hkept⟩
    exact ⟨_, _, _, rfl, rfl, hadded, hkept⟩
  · rintro ⟨before, op, later, rfl, rfl, hadded, hkept⟩
    exact .intro hadded hkept

theorem HeldAt.step_lt {ops : List (StackOperation α)} {step depth : Nat} {a : α}
    (h : HeldAt ops step depth a) : step < ops.length := by
  obtain ⟨before, op, later, rfl, rfl, -, -⟩ := heldAt_iff.mp h
  rw [List.length_append, List.length_cons]
  omega

/-- What one more operation adds lies on top, and what it does not take away moves. -/
theorem heldAt_concat {ops : List (StackOperation α)} {op : StackOperation α}
    {step next : Nat} {a : α} :
    HeldAt (ops ++ [op]) step next a ↔
      (step = ops.length ∧ next = 0 ∧ Adds ops op a) ∨
        (op ≠ clear ∧ ∃ depth, HeldAt ops step depth a ∧
          next + op.removes.toNat = depth + op.adds.toNat) := by
  constructor
  · intro h
    obtain ⟨before, op', later, hops, rfl, hadded, hkept⟩ := heldAt_iff.mp h
    -- The operand was added by the last operation, or by one before it.
    rcases List.eq_nil_or_concat later with rfl | ⟨later, last, rfl⟩
    · obtain ⟨rfl, hop⟩ := List.append_inj' hops rfl
      obtain rfl : op = op' := List.singleton_inj.mp hop
      have habove : 0 = next := by simpa using hkept.above
      exact Or.inl ⟨rfl, habove.symm, hadded⟩
    · rw [List.concat_eq_append, ← List.cons_append, ← List.append_assoc] at hops
      obtain ⟨rfl, hop⟩ := List.append_inj' hops rfl
      obtain rfl : op = last := List.singleton_inj.mp hop
      rw [List.concat_eq_append] at hkept
      obtain ⟨hne, depth, hkept, hnext⟩ := leavesAbove_concat.mp hkept
      exact Or.inr ⟨hne, depth, .intro hadded hkept, hnext⟩
  · rintro (⟨rfl, rfl, hadded⟩ | ⟨hne, depth, hheld, hnext⟩)
    · exact .intro hadded leavesAbove_nil
    · obtain ⟨before, op', later, rfl, rfl, hadded, hkept⟩ := heldAt_iff.mp hheld
      rw [List.append_assoc, List.cons_append]
      exact .intro hadded (leavesAbove_concat.mpr ⟨hne, depth, hkept, hnext⟩)

namespace LatestFirst

theorem nil : LatestFirst ([] : List (StackOperation α)) [] := by
  refine ⟨[], rfl, .nil, fun step depth a => iff_of_false ?_ nofun⟩
  intro h
  exact Nat.not_lt_zero step h.step_lt

variable {ops : List (StackOperation α)} {op : StackOperation α} {l : List α} {a : α}

theorem top_iff (h : LatestFirst ops (a :: l)) {b : α} :
    (∃ step, HeldAt ops step 0 b) ↔ b = a := by
  obtain ⟨entries, hoperands, -, hentries⟩ := h
  cases entries with
  | nil => exact nomatch hoperands
  | cons entry rest =>
      obtain ⟨source, top⟩ := entry
      obtain rfl : top = a := (List.cons.inj hoperands).1
      simp [hentries, eq_comm]

/-- An operation that adds an operand puts it on top. -/
theorem add (h : LatestFirst ops l) (hop : op.adds = true)
    (hadded : ∀ b, Adds ops op b ↔ b = a) : LatestFirst (ops ++ [op]) (a :: l) := by
  obtain ⟨entries, rfl, hsteps, hentries⟩ := h
  obtain ⟨hremoves, hclear⟩ := of_adds hop
  refine ⟨(ops.length, a) :: entries, rfl, ?_, fun step next b => ?_⟩
  · rw [List.map_cons, List.pairwise_cons]
    refine ⟨fun step hstep => ?_, hsteps⟩
    obtain ⟨⟨step, b⟩, hmem, rfl⟩ := List.mem_map.mp hstep
    obtain ⟨depth, hdepth⟩ := List.mem_iff_getElem?.mp hmem
    exact ((hentries step depth b).mpr hdepth).step_lt
  · rw [heldAt_concat, hadded, hop, hremoves]
    cases next with
    | zero => simp [eq_comm]
    | succ next => simp [hclear, hentries]

/-- A `pop` takes what lies on top. -/
theorem pop (h : LatestFirst ops l) : LatestFirst (ops ++ [.pop]) l.tail := by
  obtain ⟨entries, rfl, hsteps, hentries⟩ := h
  refine ⟨entries.tail, List.map_tail, ?_, fun step next b => ?_⟩
  · rw [List.map_tail]
    exact hsteps.tail
  · have hadded : ¬ Adds ops .pop b := nofun
    simp [heldAt_concat, hadded, hentries, removes, adds]

theorem clear : LatestFirst (ops ++ [.clear]) [] := by
  refine ⟨[], rfl, .nil, fun step next b => iff_of_false ?_ nofun⟩
  rw [heldAt_concat]
  rintro (⟨-, -, hadded⟩ | ⟨hne, -⟩)
  · exact nomatch hadded
  · exact hne rfl

/-- What neither adds nor takes an operand leaves them as they are. -/
theorem read (h : LatestFirst ops l) (hop : op.reads = true) : LatestFirst (ops ++ [op]) l := by
  obtain ⟨entries, rfl, hsteps, hentries⟩ := h
  refine ⟨entries, rfl, hsteps, fun step next b => ?_⟩
  obtain ⟨hadds, hremoves, hclear⟩ := of_reads hop
  have hadded : ¬ Adds ops op b := fun h => Bool.false_ne_true (hadds.symm.trans h.adds)
  simp [heldAt_concat, hadded, hclear, hadds, hremoves, hentries]

/-- On a stack without operands there is nothing to duplicate. -/
theorem duplicateEmpty (h : LatestFirst ops []) : LatestFirst (ops ++ [.duplicate]) [] := by
  obtain ⟨entries, hnil, -, hentries⟩ := h
  obtain rfl := List.map_eq_nil_iff.mp hnil
  have hnone (step depth : Nat) (b : α) : ¬ HeldAt ops step depth b := by
    rw [hentries]
    exact nofun
  refine ⟨[], rfl, .nil, fun step next b => iff_of_false ?_ nofun⟩
  rw [heldAt_concat]
  rintro (⟨-, -, hadded⟩ | ⟨-, depth, hheld, -⟩)
  · obtain ⟨source, htop⟩ := adds_duplicate_iff.mp hadded
    exact hnone source 0 b htop
  · exact hnone step depth b hheld

/-- An operation that obeys the rules leaves what the history with it describes. -/
theorem concat {answer : Except StackError (StackAnswer α)} {m : List α}
    (h : LatestFirst ops l) (hrule : Answers l op answer m) : LatestFirst (ops ++ [op]) m := by
  -- One case for each rule; the answer does not matter here.
  cases hrule with
  | push => exact h.add rfl fun b => adds_push_iff
  | duplicate => exact h.add rfl fun b => adds_duplicate_iff.trans h.top_iff
  | pop => exact h.pop
  | popEmpty => exact h.pop
  | duplicateEmpty => exact h.duplicateEmpty
  | clear => exact .clear
  | clearEmpty => exact .clear
  | peek => exact h.read rfl
  | peekEmpty => exact h.read rfl
  | peekBelow => exact h.read rfl
  | size => exact h.read rfl
  | isEmpty => exact h.read rfl
  | dump => exact h.read rfl

/-- A sequence of operations that obey the rules leaves what the history with them
describes. -/
theorem append {answers : List (Except StackError (StackAnswer α))}
    {later : List (StackOperation α)} {m : List α} (h : LatestFirst ops l)
    (hrules : AnswersAll l later answers m) : LatestFirst (ops ++ later) m := by
  induction hrules generalizing ops with
  | nil =>
      rw [List.append_nil]
      exact h
  | cons first rest ih =>
      rw [List.append_cons]
      exact ih (h.concat first)

end LatestFirst

namespace Answers

variable {l m : List α} {op : StackOperation α}
  {answer answer' : Except StackError (StackAnswer α)}

/-- The rules leave no choice. -/
theorem unique {m' : List α} (h : Answers l op answer m) (h' : Answers l op answer' m') :
    answer = answer' ∧ m = m' := by
  cases h <;> cases h' <;> simp_all

theorem of_error {cause : StackError} (h : Answers l op (.error cause) m) : m = l := by
  cases h <;> rfl

theorem of_reads (h : Answers l op answer m) (hop : op.reads = true) : m = l := by
  cases h <;> simp [reads] at hop ⊢

/-- What `peek` answers, in one expression. -/
theorem peek_eq {depth : Nat} (h : Answers l (.peek depth) answer m) :
    answer = if h : depth < l.length then .ok (.operand l[depth])
      else if l.length = 0 then .error .empty
      else .error (.outOfRange depth l.length) := by
  cases h with
  | peek h =>
      obtain ⟨hdepth, rfl⟩ := List.getElem?_eq_some_iff.mp h
      rw [dif_pos hdepth]
  | peekEmpty => rfl
  | peekBelow hne h =>
      rw [dif_neg (Nat.not_lt.mpr h), if_neg (mt List.length_eq_zero_iff.mp hne)]

end Answers

/-- The rules leave no choice in a sequence of operations. -/
theorem AnswersAll.unique {l m m' : List α} {ops : List (StackOperation α)}
    {answers answers' : List (Except StackError (StackAnswer α))}
    (h : AnswersAll l ops answers m) (h' : AnswersAll l ops answers' m') :
    answers = answers' ∧ m = m' := by
  induction h generalizing answers' with
  | nil =>
      cases h'
      exact ⟨rfl, rfl⟩
  | cons first rest ih =>
      cases h' with
      | cons first' rest' =>
          obtain ⟨rfl, rfl⟩ := first.unique first'
          obtain ⟨rfl, rfl⟩ := ih rest'
          exact ⟨rfl, rfl⟩

end StackOperation

end DeskCalc
