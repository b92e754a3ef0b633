/-! What can be wrong with a YAML text. A fault tells the octets before its place; the few that concern
the text as a whole tell none. -/
namespace CloudTemplate.Yaml

inductive Cause where
  | forbiddenCharacter
  | noTokenStart
  | missingColon
  | misplacedItem
  | misplacedKey
  | misplacedValue
  | directiveName
  | unknownDirective
  | directiveEnd
  | versionNumber
  | tagHandle
  | tagText
  | tagEscape
  | tagEnd
  | anchorName
  | zeroIndentation
  | blockHeader
  | tabIndentation
  | markerInQuotes
  | openQuotes
  | unknownEscape
  | hexadecimalDigit
  | noCharacter
  | colonInCollection
  | expectedNode
  | expectedItem
  | expectedKey
  | expectedSeparator
  | expectedDocument
  | repeatedDirective
  | unknownVersion
  | unknownHandle
  | unknownAnchor
  | repeatedKey
  | integerOutOfRange
  | notOfTag
  | wrongKind
  | tooDeep
  | tooManyAliases
  | severalDocuments
  | endOfEvents
  deriving DecidableEq, Repr

structure Fault where
  cause : Cause
  place : Option Nat
  deriving DecidableEq, Repr

end CloudTemplate.Yaml
