import AmdUnwrap.Text.Basic

namespace AmdUnwrap

inductive Punct where
  | lbrace | rbrace | lparen | rparen | lbracket | rbracket
  | dot | ellipsis | semicolon | comma | question | optional | colon | arrow
  | less | greater | lessEqual | greaterEqual
  | equal | notEqual | identical | notIdentical
  | plus | minus | star | slash | percent | power | increment | decrement
  | shiftLeft | shiftRight | shiftZero | ampersand | bar | caret | bang | tilde
  | conjunction | disjunction | nullish
  | assign | plusAssign | minusAssign | starAssign | slashAssign | percentAssign | powerAssign
  | shiftLeftAssign | shiftRightAssign | shiftZeroAssign
  | ampersandAssign | barAssign | caretAssign
  | conjunctionAssign | disjunctionAssign | nullishAssign
  deriving DecidableEq, Repr

namespace Punct

/-- All spellings, longer ones first. -/
def spellings : List (Text × Punct) :=
  [(['>', '>', '>', '='], shiftZeroAssign),
    (['.', '.', '.'], ellipsis), (['=', '=', '='], identical), (['!', '=', '='], notIdentical),
    (['*', '*', '='], powerAssign), (['<', '<', '='], shiftLeftAssign),
    (['>', '>', '='], shiftRightAssign), (['>', '>', '>'], shiftZero),
    (['&', '&', '='], conjunctionAssign), (['|', '|', '='], disjunctionAssign),
    (['?', '?', '='], nullishAssign),
    (['=', '>'], arrow), (['=', '='], equal), (['!', '='], notEqual), (['<', '='], lessEqual),
    (['>', '='], greaterEqual), (['*', '*'], power), (['+', '+'], increment),
    (['-', '-'], decrement), (['<', '<'], shiftLeft), (['>', '>'], shiftRight),
    (['&', '&'], conjunction), (['|', '|'], disjunction), (['?', '?'], nullish),
    (['?', '.'], optional), (['+', '='], plusAssign), (['-', '='], minusAssign),
    (['*', '='], starAssign), (['/', '='], slashAssign), (['%', '='], percentAssign),
    (['&', '='], ampersandAssign), (['|', '='], barAssign), (['^', '='], caretAssign),
    (['{'], lbrace), (['}'], rbrace), (['('], lparen), ([')'], rparen), (['['], lbracket),
    ([']'], rbracket), ([';'], semicolon), ([','], comma), (['<'], less), (['>'], greater),
    (['+'], plus), (['-'], minus), (['*'], star), (['/'], slash), (['%'], percent),
    (['&'], ampersand), (['|'], bar), (['^'], caret), (['!'], bang), (['~'], tilde),
    (['?'], question), ([':'], colon), (['='], assign), (['.'], dot)]

/-- A `?.` before a digit is a `?` and the point of a number. -/
def fits (spelling text : Text) : Bool :=
  spelling.isPrefixOf text &&
    !(spelling == ['?', '.'] && (text.drop 2).head?.any Char.isDigit)

def read? (text : Text) : Option (Text × Punct) :=
  spellings.find? fun (spelling, _) => fits spelling text

def strength? : Punct → Option Nat
  | nullish | disjunction => some 1
  | conjunction => some 2
  | bar => some 3
  | caret => some 4
  | ampersand => some 5
  | equal | notEqual | identical | notIdentical => some 6
  | less | greater | lessEqual | greaterEqual => some 7
  | shiftLeft | shiftRight | shiftZero => some 8
  | plus | minus => some 9
  | star | slash | percent => some 10
  | power => some 11
  | _ => none

def isLogical : Punct → Bool
  | nullish | disjunction | conjunction => true
  | _ => false

def isAssignment : Punct → Bool
  | assign | plusAssign | minusAssign | starAssign | slashAssign | percentAssign | powerAssign
  | shiftLeftAssign | shiftRightAssign | shiftZeroAssign | ampersandAssign | barAssign
  | caretAssign | conjunctionAssign | disjunctionAssign | nullishAssign => true
  | _ => false

end Punct
end AmdUnwrap
