import EqSat.Text.Blank

/-!
# S-expressions

A text is a sequence of tokens: parentheses, and atoms, which are the maximal runs of
characters that are neither blank nor a parenthesis.  An s-expression is an atom or a
list of s-expressions; reading finds the one whose tokens are the tokens of the text.

    ofTokens s.tokens = .ok s        (ofTokens_tokens)
-/

namespace EqSat

inductive Token where
  | opening
  | closing
  | word (text : String)
deriving DecidableEq, Repr

/-- An atom or a list. -/
inductive Sexpr where
  | atom (text : String)
  | list (items : List Sexpr)
deriving Repr, Inhabited, BEq

/-- Why a text is not one s-expression. -/
inductive Sexpr.Error where
  | empty
  | unexpectedClosing
  | trailingText
  | unbalanced
deriving DecidableEq, Repr

namespace Sexpr

/-! ## Tokens -/

/-- A character that can stand in an atom. -/
def isWordChar (c : Char) : Bool := !Text.isBlank c && c != '(' && c != ')'

/-- The token of the word read so far, if there is one; its characters are held last first. -/
def wordToken : List Char → List Token
  | [] => []
  | cs => [.word (String.ofList cs.reverse)]

/-- Split into tokens, `word` being the word that the last characters began. -/
def tokenizeFrom (word : List Char) : List Char → List Token
  | [] => wordToken word
  | c :: cs =>
    if c == '(' then wordToken word ++ .opening :: tokenizeFrom [] cs
    else if c == ')' then wordToken word ++ .closing :: tokenizeFrom [] cs
    else if Text.isBlank c then wordToken word ++ tokenizeFrom [] cs
    else tokenizeFrom (c :: word) cs

def tokenize (s : String) : List Token := tokenizeFrom [] s.toList

/-! ## Reading -/

/-- Read with the lists still open, innermost first, each with its items last first. -/
def readFrom : List (List Sexpr) → List Token → Except Error Sexpr
  | _, [] => .error .unbalanced
  | lists, .opening :: ts => readFrom ([] :: lists) ts
  | [], .closing :: _ => .error .unexpectedClosing
  | [], .word s :: ts => if ts.isEmpty then .ok (.atom s) else .error .trailingText
  | items :: lists, .word s :: ts => readFrom ((.atom s :: items) :: lists) ts
  | [items], .closing :: ts =>
    if ts.isEmpty then .ok (.list items.reverse) else .error .trailingText
  | items :: outer :: lists, .closing :: ts =>
    readFrom ((.list items.reverse :: outer) :: lists) ts

/-- The s-expression that the tokens spell. -/
def ofTokens (ts : List Token) : Except Error Sexpr :=
  if ts.isEmpty then .error .empty else readFrom [] ts

def read (s : String) : Except Error Sexpr := ofTokens (tokenize s)

/-! ## Writing -/

mutual

/-- The tokens of an s-expression, in front of `rest`. -/
def tokensOnto : Sexpr → List Token → List Token
  | atom s, rest => .word s :: rest
  | list items, rest => .opening :: itemTokensOnto items (.closing :: rest)

def itemTokensOnto : List Sexpr → List Token → List Token
  | [], rest => rest
  | x :: xs, rest => tokensOnto x (itemTokensOnto xs rest)

end

/-- The token sequence of an s-expression written out. -/
def tokens (s : Sexpr) : List Token := s.tokensOnto []

mutual

/-- The text of an s-expression, in front of `rest`: items stand one space apart. -/
def textOnto : Sexpr → List Char → List Char
  | atom s, rest => s.toList ++ rest
  | list [], rest => '(' :: ')' :: rest
  | list (x :: xs), rest => '(' :: textOnto x (itemTextOnto xs (')' :: rest))

def itemTextOnto : List Sexpr → List Char → List Char
  | [], rest => rest
  | x :: xs, rest => ' ' :: textOnto x (itemTextOnto xs rest)

end

def text (s : Sexpr) : String := String.ofList (s.textOnto [])

/-! ## Lemmas -/

mutual

theorem readFrom_tokensOnto (s : Sexpr) (items : List Sexpr) (lists : List (List Sexpr))
    (rest : List Token) :
    readFrom (items :: lists) (s.tokensOnto rest) = readFrom ((s :: items) :: lists) rest := by
  match s with
  | atom w => simp [tokensOnto, readFrom]
  | list xs =>
    rw [tokensOnto, readFrom, readFrom_itemTokensOnto xs [] (items :: lists)]
    simp [readFrom]

theorem readFrom_itemTokensOnto (xs items : List Sexpr) (lists : List (List Sexpr))
    (rest : List Token) :
    readFrom (items :: lists) (itemTokensOnto xs rest) =
      readFrom ((xs.reverse ++ items) :: lists) rest := by
  match xs with
  | [] => simp [itemTokensOnto]
  | x :: xs =>
    rw [itemTokensOnto, readFrom_tokensOnto x, readFrom_itemTokensOnto xs]
    simp

end

theorem ofTokens_tokens (s : Sexpr) : ofTokens s.tokens = .ok s := by
  cases s with
  | atom w => simp [tokens, tokensOnto, ofTokens, readFrom]
  | list xs =>
    simp only [tokens, tokensOnto, ofTokens, List.isEmpty_cons, Bool.false_eq_true, if_false]
    rw [readFrom, readFrom_itemTokensOnto xs [] []]
    simp [readFrom]

end Sexpr

namespace Sexpr.Error

def message : Sexpr.Error → String
  | empty => "empty expression"
  | unexpectedClosing => "unexpected ')'"
  | trailingText => "unexpected text after expression"
  | unbalanced => "unbalanced parentheses"

end Sexpr.Error

end EqSat
