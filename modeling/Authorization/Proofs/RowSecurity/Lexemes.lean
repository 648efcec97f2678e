import Authorization.RowSecurity.Statement
import Mathlib.Data.List.Basic

/-!
# Lexemes of statements

How a database cuts the text of a statement: what stands between quotes, double or
single ones, is taken together, and a quote written twice stands for itself there;
outside of quotes each character counts (`lexemes?`). Parentheses outside of
quotes lead up and down again (`depth?`).

Pieces are *nested* if they are put together with fixed text between any two names
or literals, and with an opening and a closing text around what is nested
(`Nested`). Then the text is cut into the lexemes of the pieces, whatever names and
literals hold (`Nested.cut`); it leads back to the depth it came from
(`Nested.depth?_lexemes`) and has no semicolon outside of quotes.
-/

namespace Authorization.RowSecurity

/-- What a text consists of. -/
inductive Lexeme
  /-- What stands between two quotes. -/
  | quoted (quote : Char) (s : String)
  /-- A character outside of quotes. -/
  | plain (c : Char)
  deriving DecidableEq

namespace Lexeme

/-- Whether the lexeme stands between quotes. -/
def isQuoted : Lexeme → Bool
  | quoted _ _ => true
  | plain _ => false

end Lexeme

/-- Where reading has come to. -/
inductive Place
  /-- Outside of quotes. -/
  | outside
  /-- After a quote and the characters. -/
  | inside (quote : Char) (cs : List Char)
  /-- After a second quote, which ends what is quoted unless the same follows. -/
  | ending (quote : Char) (cs : List Char)

/-- Whether the character is a quote. -/
def isQuote (c : Char) : Bool := c == '"' || c == '\''

/-- What a character outside of quotes begins. -/
def start (c : Char) : List Lexeme × Place :=
  if isQuote c then ([], .inside c []) else ([.plain c], .outside)

/-- The lexemes that a character completes, and where reading is after it. -/
def step : Place → Char → List Lexeme × Place
  | .outside, c => start c
  | .inside q cs, c => if c = q then ([], .ending q cs) else ([], .inside q (cs ++ [c]))
  | .ending q cs, c =>
    if c = q then ([], .inside q (cs ++ [q]))
    else (.quoted q (.ofList cs) :: (start c).1, (start c).2)

/-- Lexemes, and those that are read after them. -/
def following (ls : List Lexeme) (rest : List Lexeme × Place) : List Lexeme × Place :=
  (ls ++ rest.1, rest.2)

/-- The lexemes that a text completes, and where reading is after it. -/
def read : Place → List Char → List Lexeme × Place
  | p, [] => ([], p)
  | p, c :: cs => following (step p c).1 (read (step p c).2 cs)

/-- The lexemes that are complete at the end of the text, which may not be inside of quotes. -/
def finish? : Place → Option (List Lexeme)
  | .outside => some []
  | .inside _ _ => none
  | .ending q cs => some [.quoted q (.ofList cs)]

/-- The lexemes of a text, unless it ends inside of quotes. -/
def lexemes? (cs : List Char) : Option (List Lexeme) :=
  (finish? (read .outside cs).2).map ((read .outside cs).1 ++ ·)

/-- How deep in parentheses a lexeme leads; a closing one has to have an opening one. -/
def turn? (d : Nat) : Lexeme → Option Nat
  | .plain '(' => some (d + 1)
  | .plain ')' => if d = 0 then none else some (d - 1)
  | _ => some d

/-- How deep in parentheses lexemes lead. -/
def depth? (d : Nat) (ls : List Lexeme) : Option Nat := ls.foldlM turn? d

/-! ### Reading -/

theorem following_nil (rest : List Lexeme × Place) : following [] rest = rest := rfl

theorem following_append (ls ms : List Lexeme) (rest : List Lexeme × Place) :
    following (ls ++ ms) rest = following ls (following ms rest) := by
  rw [following, following, following, List.append_assoc]

/-- Text without quotes is read character by character. -/
theorem read_plain {cs : List Char} (h : ∀ c ∈ cs, isQuote c = false) (ds : List Char) :
    read .outside (cs ++ ds) = following (cs.map .plain) (read .outside ds) := by
  induction cs with
  | nil => rfl
  | cons c cs ih =>
    obtain ⟨hc, hcs⟩ := List.forall_mem_cons.1 h
    have hstep : step .outside c = ([.plain c], .outside) := by
      rw [step, start, hc]
      rfl
    rw [List.cons_append, read, hstep, ih hcs]
    rfl

/-- What is quoted is read to the end of its quotes. -/
theorem read_double (q : Char) (ds : List Char) (n : List Char) : ∀ cs,
    read (.inside q cs) (Text.double q n ++ q :: ds) = read (.ending q (cs ++ n)) ds := by
  induction n with
  | nil =>
    intro cs
    rw [Text.double, List.nil_append, read, step, if_pos rfl, List.append_nil]
    rfl
  | cons c n ih =>
    intro cs
    have hcs : cs ++ c :: n = (cs ++ [c]) ++ n := List.append_cons cs c n
    rw [Text.double, hcs, ← ih]
    split
    · -- The first of two quotes seems to be the last one until the second is read.
      rename_i hquote
      rw [List.cons_append, List.cons_append, read, step, if_pos rfl, following_nil, read, step,
        if_pos rfl, following_nil, hquote]
    · rename_i hquote
      rw [List.cons_append, read, step, if_neg hquote, following_nil]

/-- Quotes end before a character that is none. -/
theorem read_ending {q c : Char} (hq : isQuote q = true) (hc : isQuote c = false)
    (cs ds : List Char) : read (.ending q cs) (c :: ds) =
      following [.quoted q (.ofList cs)] (read .outside (c :: ds)) := by
  have hne : c ≠ q := fun h => Bool.false_ne_true (hc.symm.trans (h ▸ hq))
  rw [read, step, if_neg hne, read, step]
  rfl

theorem read_quoted {q c : Char} (hq : isQuote q = true) (hc : isQuote c = false) (s : String)
    (ds : List Char) : read .outside ((Text.quoted q s).toList ++ c :: ds) =
      following [.quoted q s] (read .outside (c :: ds)) := by
  have hstart : step .outside q = ([], .inside q []) := by
    rw [step, start, hq]
    rfl
  rw [Text.quoted, String.toList_ofList, List.cons_append, List.cons_append, read, hstart,
    following_nil, List.append_assoc, List.singleton_append, read_double, List.nil_append,
    read_ending hq hc, String.ofList_toList]

/-! ### Depths -/

theorem depth?_append (d : Nat) (ls ms : List Lexeme) :
    depth? d (ls ++ ms) = (depth? d ls).bind (depth? · ms) := List.foldlM_append

theorem turn?_add {l : Lexeme} {d e : Nat} (h : turn? d l = some e) (k : Nat) :
    turn? (d + k) l = some (e + k) := by
  unfold turn? at h ⊢
  split at h
  · cases h
    rw [Nat.add_right_comm]
  · rw [Option.ite_none_left_eq_some] at h ⊢
    obtain ⟨hd, he⟩ := h
    cases he
    exact ⟨by omega, congrArg some (by omega)⟩
  · cases h
    rfl

/-- Further in, the same parentheses lead as far. -/
theorem depth?_add {ls : List Lexeme} {d e : Nat} (h : depth? d ls = some e) (k : Nat) :
    depth? (d + k) ls = some (e + k) := by
  induction ls generalizing d with
  | nil =>
    cases h
    rfl
  | cons l ls ih =>
    obtain ⟨d', hturn, hrest⟩ := Option.bind_eq_some_iff.1 h
    exact Option.bind_eq_some_iff.2 ⟨d' + k, turn?_add hturn k, ih hrest⟩

/-! ### Pieces -/

namespace Piece

/-- The characters of a piece. -/
def chars (p : Piece) : List Char := p.text.toList

/-- The lexeme of what is quoted in a piece. -/
def quoted? : Piece → Option Lexeme
  | fixed _ => none
  | name s => some (.quoted '"' s)
  | literal s => some (.quoted '\'' s)

/-- The lexemes of a piece. -/
def lexemes : Piece → List Lexeme
  | fixed s => s.toList.map .plain
  | p => p.quoted?.toList

end Piece

/-- A text without quotes and semicolons leads from one depth to another. -/
def Fits (d e : Nat) (s : String) : Prop :=
  s.toList ≠ [] ∧ (∀ c ∈ s.toList, isQuote c = false ∧ c ≠ ';') ∧
    depth? d (s.toList.map .plain) = some e

-- The test goes through the characters of the text, not through all characters there are.
instance (d e : Nat) (s : String) : Decidable (Fits d e s) :=
  have := List.decidableBAll (fun c => isQuote c = false ∧ c ≠ ';') s.toList
  inferInstanceAs (Decidable (_ ∧ _ ∧ _))

theorem Fits.append {d e f : Nat} {s t : String} (hs : Fits d e s) (ht : Fits e f t) :
    Fits d f (s ++ t) := by
  obtain ⟨hne, hplain, hdepth⟩ := hs
  rw [Fits, String.toList_append]
  refine ⟨List.append_ne_nil_of_left_ne_nil hne _, fun c hc => ?_, ?_⟩
  · rcases List.mem_append.1 hc with hc | hc
    · exact hplain c hc
    · exact ht.2.1 c hc
  · rw [List.map_append, depth?_append, hdepth, Option.bind_some, ht.2.2]

/-- Pieces with fixed text between any two names or literals, and with opening and closing texts
    in pairs. -/
inductive Nested : List Piece → Prop
  | nil : Nested []
  | name (s : String) : Nested [.name s]
  | literal (s : String) : Nested [.literal s]
  | joined {ps qs : List Piece} {s : String} : Nested ps → Fits 0 0 s → Nested qs →
      Nested (ps ++ .fixed s :: qs)
  | enclosed {ps qs : List Piece} {s t : String} : Nested ps → Fits 0 1 s → Nested qs → Fits 1 0 t →
      Nested (ps ++ .fixed s :: (qs ++ [.fixed t]))

/-- Before a character that is no quote, the text of the pieces is cut into their lexemes. -/
def Cut (ps : List Piece) : Prop :=
  ∀ c cs, isQuote c = false → read .outside (ps.flatMap Piece.chars ++ c :: cs) =
    following (ps.flatMap Piece.lexemes) (read .outside (c :: cs))

variable {ps qs : List Piece} {s t : String} {d e : Nat}

theorem Cut.nil : Cut [] := fun _ _ _ => rfl

theorem Cut.name (s : String) : Cut [.name s] := fun _ _ hc => by
  rw [List.flatMap_singleton, List.flatMap_singleton]
  exact read_quoted rfl hc s _

theorem Cut.literal (s : String) : Cut [.literal s] := fun _ _ hc => by
  rw [List.flatMap_singleton, List.flatMap_singleton]
  exact read_quoted rfl hc s _

theorem Cut.append (hp : Cut ps) (hs : Fits d e s) (hq : Cut qs) :
    Cut (ps ++ .fixed s :: qs) := by
  intro c cs hc
  obtain ⟨hne, hplain, _⟩ := hs
  obtain ⟨x, xs, hx⟩ := List.exists_cons_of_ne_nil hne
  have hxs : ∀ y ∈ x :: xs, isQuote y = false := fun y hy => (hplain y (hx ▸ hy)).1
  have hchars : (Piece.fixed s).chars = x :: xs := hx
  have hlexemes : (Piece.fixed s).lexemes = (x :: xs).map .plain := congrArg (List.map _) hx
  rw [List.flatMap_append, List.flatMap_append, List.flatMap_cons, List.flatMap_cons, hchars,
    hlexemes, List.append_assoc, List.append_assoc, List.cons_append,
    hp x _ (hxs x List.mem_cons_self), ← List.cons_append, read_plain hxs, hq c cs hc,
    following_append, following_append]

/-- The text of nested pieces is cut into their lexemes, whatever is quoted. -/
theorem Nested.cut (h : Nested ps) : Cut ps := by
  induction h with
  | nil => exact .nil
  | name s => exact .name s
  | literal s => exact .literal s
  | joined _ hs _ hp hq => exact hp.append hs hq
  | enclosed _ hs _ ht hp hq => exact hp.append hs (hq.append ht .nil)

theorem depth?_fixed (h : Fits d e s) (k : Nat) (ls : List Lexeme) :
    depth? (d + k) ((Piece.fixed s).lexemes ++ ls) = depth? (e + k) ls := by
  rw [depth?_append, Piece.lexemes, depth?_add h.2.2, Option.bind_some]

/-- Nested pieces lead back to the depth they come from. -/
theorem Nested.depth?_lexemes (h : Nested ps) :
    ∀ d, depth? d (ps.flatMap Piece.lexemes) = some d := by
  induction h with
  | nil => exact fun _ => rfl
  | name s => exact fun _ => rfl
  | literal s => exact fun _ => rfl
  | joined _ hs _ hp hq =>
    intro d
    rw [List.flatMap_append, depth?_append, hp, Option.bind_some, List.flatMap_cons,
      ← Nat.zero_add d, depth?_fixed hs, hq]
  | enclosed _ hs _ ht hp hq =>
    intro d
    have hback := depth?_fixed ht d []
    rw [List.append_nil] at hback
    rw [List.flatMap_append, depth?_append, hp, Option.bind_some, List.flatMap_cons,
      List.flatMap_append, List.flatMap_singleton, ← Nat.zero_add d, depth?_fixed hs,
      depth?_append, hq, Option.bind_some, hback]
    rfl

/-- Nested pieces have no semicolon outside of quotes. -/
theorem Nested.not_mem_lexemes (h : Nested ps) : .plain ';' ∉ ps.flatMap Piece.lexemes := by
  have hfixed : ∀ {d e s}, Fits d e s → .plain ';' ∉ (Piece.fixed s).lexemes := by
    intro d e s hs hmem
    obtain ⟨c, hc, hplain⟩ := List.mem_map.1 hmem
    exact (hs.2.1 c hc).2 (Lexeme.plain.inj hplain)
  induction h with
  | nil => exact List.not_mem_nil
  | name s => exact fun h => nomatch List.mem_singleton.1 h
  | literal s => exact fun h => nomatch List.mem_singleton.1 h
  | joined _ hs _ hp hq => simp [hp, hq, hfixed hs]
  | enclosed _ hs _ ht hp hq => simp [hp, hq, hfixed hs, hfixed ht]

end Authorization.RowSecurity
