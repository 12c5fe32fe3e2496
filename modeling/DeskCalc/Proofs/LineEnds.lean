import DeskCalc.CommandLine
import Mathlib.Data.List.Basic

/-!
# Line ends

Lines end with a newline, or with a carriage return and a newline, and the last line may lack
its end. A stream is split before anything else is done with it, and the splitter gives the same
lines in all these cases, so no session can tell them apart. A carriage return anywhere else
stays in its line.
-/

namespace DeskCalc

namespace Line

/-- The bytes with a carriage return in front of every newline. -/
def withReturns (bytes : List UInt8) : List UInt8 :=
  bytes.flatMap fun b => if b = newline then [carriageReturn, newline] else [b]

@[simp] theorem withReturns_nil : withReturns [] = [] := rfl

theorem withReturns_append (a b : List UInt8) :
    withReturns (a ++ b) = withReturns a ++ withReturns b :=
  List.flatMap_append

theorem withReturns_newline (rest : List UInt8) :
    withReturns (newline :: rest) = carriageReturn :: newline :: withReturns rest := by
  rw [withReturns, List.flatMap_cons, if_pos rfl]
  rfl

theorem withReturns_cons {b : UInt8} (h : b ≠ newline) (rest : List UInt8) :
    withReturns (b :: rest) = b :: withReturns rest := by
  rw [withReturns, List.flatMap_cons, if_neg h]
  rfl

theorem withReturns_of_not_mem {bytes : List UInt8} (h : newline ∉ bytes) :
    withReturns bytes = bytes := by
  induction bytes with
  | nil => rfl
  | cons b rest ih =>
      have hb := List.ne_of_not_mem_cons h
      have hrest := List.not_mem_of_not_mem_cons h
      rw [withReturns_cons (Ne.symm hb), ih hrest]

theorem dropReturn_carriageReturn (pending : List UInt8) :
    dropReturn (carriageReturn :: pending) = pending := rfl

theorem dropReturn_of_not_mem {pending : List UInt8} (h : carriageReturn ∉ pending) :
    dropReturn pending = pending := by
  cases pending with
  | nil => rfl
  | cons b rest => exact if_neg (Ne.symm (List.ne_of_not_mem_cons h))

theorem splitFrom_newline (pending rest : List UInt8) :
    splitFrom pending (newline :: rest) = (dropReturn pending).reverse :: split rest := by
  rw [splitFrom, if_pos rfl, split]

theorem splitFrom_cons {b : UInt8} (h : b ≠ newline) (pending rest : List UInt8) :
    splitFrom pending (b :: rest) = splitFrom (b :: pending) rest := by
  rw [splitFrom, if_neg h]

/-- The splitter takes the carriage return that was put in front of a newline, and no other
byte with it. -/
theorem splitFrom_withReturns {pending bytes : List UInt8} (hpending : carriageReturn ∉ pending)
    (hbytes : carriageReturn ∉ bytes) :
    splitFrom pending (withReturns bytes) = splitFrom pending bytes := by
  induction bytes generalizing pending with
  | nil => rfl
  | cons b rest ih =>
      have hb := List.ne_of_not_mem_cons hbytes
      have hrest := List.not_mem_of_not_mem_cons hbytes
      by_cases hnewline : b = newline
      · rw [hnewline, withReturns_newline, splitFrom_cons (by decide), splitFrom_newline,
          splitFrom_newline, dropReturn_carriageReturn, dropReturn_of_not_mem hpending, split,
          split, ih List.not_mem_nil hrest]
      · rw [withReturns_cons hnewline, splitFrom_cons hnewline, splitFrom_cons hnewline,
          ih (List.not_mem_cons_of_ne_of_not_mem hb hpending) hrest]

theorem split_withReturns {bytes : List UInt8} (h : carriageReturn ∉ bytes) :
    split (withReturns bytes) = split bytes :=
  splitFrom_withReturns List.not_mem_nil h

/-- A last line is the same with its newline and without it, unless it is empty or ends with a
carriage return. -/
theorem splitFrom_concat_newline {last : UInt8} (hnewline : last ≠ newline)
    (hreturn : last ≠ carriageReturn) (pending bytes : List UInt8) :
    splitFrom pending (bytes ++ [last, newline]) = splitFrom pending (bytes ++ [last]) := by
  induction bytes generalizing pending with
  | nil =>
      have hkeep : dropReturn (last :: pending) = last :: pending := if_neg hreturn
      rw [List.nil_append, List.nil_append, splitFrom_cons hnewline, splitFrom_cons hnewline,
        splitFrom_newline, hkeep]
      rfl
  | cons b rest ih =>
      rw [List.cons_append, List.cons_append]
      by_cases hb : b = newline
      · rw [hb, splitFrom_newline, splitFrom_newline, split, split, ih]
      · rw [splitFrom_cons hb, splitFrom_cons hb, ih]

/-- The bytes of a text. -/
def encode (text : List Char) : List UInt8 := text.flatMap String.utf8EncodeChar

theorem encode_append (a b : List Char) : encode (a ++ b) = encode a ++ encode b :=
  List.flatMap_append

theorem encode_cons (c : Char) (text : List Char) :
    encode (c :: text) = String.utf8EncodeChar c ++ encode text :=
  List.flatMap_cons

/-- The text with a carriage return in front of every newline. -/
def addReturns (text : List Char) : List Char :=
  text.flatMap fun c => if c = '\n' then ['\r', '\n'] else [c]

/-- A byte below 128 stands for a character of its own. -/
theorem toNat_of_mem_utf8EncodeChar {c : Char} {b : UInt8} (h : b ∈ String.utf8EncodeChar c)
    (hb : b.toNat < 128) : c.toNat = b.toNat := by
  have hchar : c.val.toNat = c.toNat := rfl
  unfold String.utf8EncodeChar at h
  simp only [hchar] at h
  split at h
  · next hshort =>
      rw [List.mem_singleton.mp h, UInt8.toNat_ofNat']
      omega
  -- All bytes of a longer character are large.
  · grind [UInt8.toNat_ofNat']

theorem not_mem_utf8EncodeChar {c d : Char} (h : c ≠ d) {b : UInt8} (hb : b.toNat = d.toNat)
    (hd : d.toNat < 128) : b ∉ String.utf8EncodeChar c := by
  intro hmem
  have hc := toNat_of_mem_utf8EncodeChar hmem (hb ▸ hd)
  exact h (Char.toNat_inj.mp (hc.trans hb))

theorem carriageReturn_not_mem_encode {text : List Char} (h : '\r' ∉ text) :
    carriageReturn ∉ encode text := by
  rw [encode, List.mem_flatMap]
  rintro ⟨c, hc, hmem⟩
  have hne : c ≠ '\r' := fun heq => h (heq ▸ hc)
  exact not_mem_utf8EncodeChar hne rfl (by decide) hmem

theorem encode_addReturns (text : List Char) :
    encode (addReturns text) = withReturns (encode text) := by
  induction text with
  | nil => rfl
  | cons c rest ih =>
      rw [encode_cons, withReturns_append, ← ih, addReturns, List.flatMap_cons, encode_append]
      congr 1
      by_cases hc : c = '\n'
      · rw [hc]
        rfl
      · rw [if_neg hc, withReturns_of_not_mem (not_mem_utf8EncodeChar hc rfl (by decide))]
        exact List.append_nil _

/-- The last byte of a text belongs to its last character. -/
theorem split_encode_concat_newline {c : Char} (hnewline : c ≠ '\n') (hreturn : c ≠ '\r')
    (text : List Char) :
    split (encode (text ++ [c, '\n'])) = split (encode (text ++ [c])) := by
  obtain ⟨bytes, last, hchar⟩ :=
    (List.eq_nil_or_concat' _).resolve_left (String.utf8EncodeChar_ne_nil (c := c))
  have hlast : last ∈ String.utf8EncodeChar c := by
    rw [hchar]
    exact List.mem_append_right bytes (List.mem_singleton_self last)
  have hnewline' : last ≠ newline := fun heq =>
    not_mem_utf8EncodeChar hnewline rfl (by decide) (heq ▸ hlast)
  have hreturn' : last ≠ carriageReturn := fun heq =>
    not_mem_utf8EncodeChar hreturn rfl (by decide) (heq ▸ hlast)
  have hchars : encode [c] = bytes ++ [last] := by
    rw [encode_cons, hchar]
    exact List.append_nil _
  have hended : encode [c, '\n'] = bytes ++ [last, newline] := by
    rw [encode_cons, hchar]
    exact List.append_assoc bytes [last] [newline]
  rw [encode_append, encode_append, hchars, hended, ← List.append_assoc, ← List.append_assoc]
  exact splitFrom_concat_newline hnewline' hreturn' [] _

end Line

/-- Two streams that no session tells apart: from every calculator they give the same report,
leave every handler in the same state and make the same run of the program. -/
structure SameSessions (input input' : List UInt8) : Prop where
  report : ∀ {α : Type} [Operand α] (m : Machine α), Session.run m input = Session.run m input'
  handled : ∀ {α σ : Type} [Operand α] (h : Handler σ) (state : σ) (m : Machine α),
    Session.runWith h state m input = Session.runWith h state m input'
  program : ∀ build read words,
    CommandLine.run build read words input = CommandLine.run build read words input'

/-- Only the lines of a stream count. -/
theorem sameSessions_of_split_eq {input input' : List UInt8}
    (h : Line.split input = Line.split input') : SameSessions input input' := by
  have handled {α σ : Type} [Operand α] (handler : Handler σ) (state : σ) (m : Machine α) :
      Session.runWith handler state m input = Session.runWith handler state m input' := by
    rw [Session.runWith, h, Session.runWith]
  refine ⟨handled .recording [], handled, fun build read words => ?_⟩
  simp only [CommandLine.run, CommandLine.session, handled]

/-- In a text without carriage returns, one in front of every newline makes no difference to any
session, and neither does a newline behind a last line that is not empty. -/
theorem sameSessions_of_lineEnds {text : List Char} (h : '\r' ∉ text) :
    SameSessions (Line.encode (Line.addReturns text)) (Line.encode text) ∧
      (text ≠ [] → text.getLast? ≠ some '\n' →
        SameSessions (Line.encode (text ++ ['\n'])) (Line.encode text)) := by
  constructor
  · apply sameSessions_of_split_eq
    rw [Line.encode_addReturns, Line.split_withReturns (Line.carriageReturn_not_mem_encode h)]
  · intro hne hlast
    obtain ⟨init, c, rfl⟩ := (List.eq_nil_or_concat' text).resolve_left hne
    have hreturn : c ≠ '\r' := by
      rintro rfl
      exact h (List.mem_append_right init (List.mem_singleton_self _))
    have hnewline : c ≠ '\n' := by
      rintro rfl
      exact hlast List.getLast?_concat
    apply sameSessions_of_split_eq
    rw [List.append_assoc]
    exact Line.split_encode_concat_newline hnewline hreturn init

/-- Three lines, an empty one among them, and a fourth that is not read any more. -/
theorem sameSessions_of_lineEnds_quit :
    '\r' ∉ "1 2 +\n\np q\n5".toList ∧
      SameSessions (Line.encode "1 2 +\r\n\r\np q\r\n5".toList)
        (Line.encode "1 2 +\n\np q\n5".toList) ∧
      SameSessions (Line.encode "1 2 +\n\np q\n5\n".toList)
        (Line.encode "1 2 +\n\np q\n5".toList) := by
  have hnone : '\r' ∉ "1 2 +\n\np q\n5".toList := by decide
  obtain ⟨hreturns, hend⟩ := sameSessions_of_lineEnds hnone
  exact ⟨hnone, hreturns, hend (by decide) (by decide)⟩

end DeskCalc
