import AmdUnwrap.Text.Basic

namespace AmdUnwrap

inductive Keyword where
  | breakWord | caseWord | catchWord | classWord | constWord | continueWord | debuggerWord
  | defaultWord | deleteWord | doWord | elseWord | enumWord | exportWord | extendsWord
  | falseWord | finallyWord | forWord | functionWord | ifWord | importWord | inWord
  | instanceofWord | newWord | nullWord | returnWord | superWord | switchWord | thisWord
  | throwWord | trueWord | tryWord | typeofWord | varWord | voidWord | whileWord | withWord
  | asWord | asyncWord | awaitWord | fromWord | getWord | letWord | metaWord | ofWord
  | setWord | staticWord | targetWord | yieldWord
  deriving DecidableEq, Repr

namespace Keyword

def reserved : List (Text × Keyword) :=
  [(['b', 'r', 'e', 'a', 'k'], breakWord), (['c', 'a', 's', 'e'], caseWord),
    (['c', 'a', 't', 'c', 'h'], catchWord), (['c', 'l', 'a', 's', 's'], classWord),
    (['c', 'o', 'n', 's', 't'], constWord),
    (['c', 'o', 'n', 't', 'i', 'n', 'u', 'e'], continueWord),
    (['d', 'e', 'b', 'u', 'g', 'g', 'e', 'r'], debuggerWord),
    (['d', 'e', 'f', 'a', 'u', 'l', 't'], defaultWord),
    (['d', 'e', 'l', 'e', 't', 'e'], deleteWord), (['d', 'o'], doWord),
    (['e', 'l', 's', 'e'], elseWord), (['e', 'n', 'u', 'm'], enumWord),
    (['e', 'x', 'p', 'o', 'r', 't'], exportWord),
    (['e', 'x', 't', 'e', 'n', 'd', 's'], extendsWord),
    (['f', 'a', 'l', 's', 'e'], falseWord), (['f', 'i', 'n', 'a', 'l', 'l', 'y'], finallyWord),
    (['f', 'o', 'r'], forWord), (['f', 'u', 'n', 'c', 't', 'i', 'o', 'n'], functionWord),
    (['i', 'f'], ifWord), (['i', 'm', 'p', 'o', 'r', 't'], importWord), (['i', 'n'], inWord),
    (['i', 'n', 's', 't', 'a', 'n', 'c', 'e', 'o', 'f'], instanceofWord),
    (['n', 'e', 'w'], newWord), (['n', 'u', 'l', 'l'], nullWord),
    (['r', 'e', 't', 'u', 'r', 'n'], returnWord), (['s', 'u', 'p', 'e', 'r'], superWord),
    (['s', 'w', 'i', 't', 'c', 'h'], switchWord), (['t', 'h', 'i', 's'], thisWord),
    (['t', 'h', 'r', 'o', 'w'], throwWord), (['t', 'r', 'u', 'e'], trueWord),
    (['t', 'r', 'y'], tryWord), (['t', 'y', 'p', 'e', 'o', 'f'], typeofWord),
    (['v', 'a', 'r'], varWord), (['v', 'o', 'i', 'd'], voidWord),
    (['w', 'h', 'i', 'l', 'e'], whileWord), (['w', 'i', 't', 'h'], withWord)]

/-- Words that act only where the grammar looks for them. -/
def contextual : List (Text × Keyword) :=
  [(['a', 's'], asWord), (['a', 's', 'y', 'n', 'c'], asyncWord),
    (['a', 'w', 'a', 'i', 't'], awaitWord), (['f', 'r', 'o', 'm'], fromWord),
    (['g', 'e', 't'], getWord), (['l', 'e', 't'], letWord), (['m', 'e', 't', 'a'], metaWord),
    (['o', 'f'], ofWord), (['s', 'e', 't'], setWord),
    (['s', 't', 'a', 't', 'i', 'c'], staticWord),
    (['t', 'a', 'r', 'g', 'e', 't'], targetWord), (['y', 'i', 'e', 'l', 'd'], yieldWord)]

def ofName? (name : Text) : Option Keyword := (reserved ++ contextual).lookup name

def isReserved (name : Text) : Bool := (reserved.lookup name).isSome

end Keyword
end AmdUnwrap
