/-!
The kinds of failure a caller may want to tell apart. A failure can belong to more than one.
-/
namespace ScriptCodec

inductive Category where
  | malformedListing
  | badMagic
  | truncatedHeader
  | truncated
  | corrupt
  | unhandledOpcode
  | unknownOpcode
  | unknownMnemonic
  | functionOverrun
  | unresolvedLabel
  | duplicateLabel
  | badOperand
  | poolOverflow
  | outOfRange
  | unknownScript
  | lineTooLong
deriving DecidableEq, Repr

end ScriptCodec
