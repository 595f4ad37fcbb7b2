import ClassCatalog.Path
import ClassCatalog.Text.Quoted

/-! What can go wrong, by cause.

A cause is a value; its wording is given once, by the `message` functions. A class that
is nowhere to be found is no error: a look-up then answers nothing. -/
namespace ClassCatalog

/-- What a class constant was needed for. -/
inductive Role where
  | thisClass
  | superClass
  | interface
  | innerClass
deriving DecidableEq, Repr

/-- What is wrong inside a class file or a part of one. -/
inductive Fault where
  | unexpectedEnd
  | skipPastEnd (length : Nat)
  | illegalStart
  | unsupportedVersion (major minor : UInt16)
  | badTag (tag : UInt8) (position : Nat)
  | badEntry (offset : Nat) (index : UInt16)
  | badReference (index : UInt16) (role : Role)
  | notUtf8 (index : UInt16)
  | undecodable (index : UInt16)
  | truncatedText
  | invalidText
  | attributePastEnd (length : Nat)
  | subAttributePastEnd
  | otherClass (name : String)
  | truncatedMethod
  | malformedStackMap
  | truncatedStackMap
  | inconsistentCode
deriving DecidableEq, Repr

/-- Why an edit cannot be made where it was asked for. -/
inductive Misplaced where
  | deltaTooLarge (delta : Nat)
  | offsetTooLarge (offset : Nat)
  | frameNotLast (offset last : Nat)
  | noMethod (className : String) (index : Nat)
  | noCode (className : String) (index : Nat)
  | noStackMapName (className : String)
deriving DecidableEq, Repr

/-- Why a file could not be read. -/
inductive ReadFailure where
  | notFound
  | notADirectory
  | isADirectory
  | nameTooLong
  | unexpectedEof
  | invalidInput
  | other
deriving DecidableEq, Repr

inductive ClassError where
  | format (className : String) (position : Nat) (fault : Fault)
  | read (path : Path) (failure : ReadFailure)
  | archive (path : Path)
  | missingEntry (path : Path) (entry : String)
  | noDebugInfo (className : String)
  | misplaced (cause : Misplaced)
  | targetTerminated
  | config
  | client (chain : List String)
deriving DecidableEq, Repr

/-! ### Wording -/

def Role.message : Role → String
  | thisClass => "this class name"
  | superClass => "super class name"
  | interface => "an implemented interface"
  | innerClass => "an inner class"

def Fault.message : Fault → String
  | unexpectedEnd => "unexpected end of class file"
  | skipPastEnd n => s!"cannot skip {n} bytes past end of class file"
  | illegalStart => "Illegal start of class file"
  | unsupportedVersion major minor => s!"Unsupported class file version: {major}.{minor}"
  | badTag tag position => s!"Bad constant pool tag: {tag} at {position}"
  | badEntry offset index => s!"Bad constant pool reference: {offset} from entry {index}"
  | badReference index role => s!"Bad constant pool reference {index} to " ++ role.message
  | notUtf8 index => s!"Constant pool entry {index} should be UTF8 constant"
  | undecodable index => s!"Constant pool entry {index} is not valid modified UTF-8"
  | truncatedText => "truncated UTF8 constant"
  | invalidText => "invalid modified UTF-8"
  | attributePastEnd n => s!"attribute length {n} runs past end of class file"
  | subAttributePastEnd => "Code sub-attribute runs past its enclosing attribute"
  | otherClass name => "class file defines " ++ name ++ " instead"
  | truncatedMethod => "truncated method_info"
  | malformedStackMap => "malformed StackMapTable"
  | truncatedStackMap => "truncated StackMapTable"
  | inconsistentCode => "inconsistent Code attribute"

def Misplaced.message : Misplaced → String
  | deltaTooLarge n => s!"stack map frame delta {n} exceeds 65535"
  | offsetTooLarge n => s!"uninitialized offset {n} exceeds 65535"
  | frameNotLast offset last => s!"new frame at {offset} does not follow last frame at {last}"
  | noMethod c i => c ++ s!" has no method #{i}"
  | noCode c i => c ++ s!" method #{i} has no code"
  | noStackMapName c => c ++ " has no StackMapTable name in its constant pool"

/-- The whole text of an error. Failures of the file system have no wording of their own. -/
def ClassError.message : ClassError → String
  | format c p f => "error reading class " ++ Text.quoted c ++ s!" at byte {p}: " ++ f.message
  | read p _ => "failed to read " ++ p.text
  | archive p => "failed to read archive " ++ p.text
  | missingEntry p e => "could not find entry " ++ e ++ " in " ++ p.text
  | noDebugInfo c =>
    "class " ++ c ++ " does not have source line number tables, recompile it with debug info"
  | misplaced m => m.message
  | targetTerminated => "target VM terminated"
  | config => "invalid session config"
  | client chain => "target client failure: " ++ String.intercalate ": " chain

def ClassError.isFormat : ClassError → Bool
  | format .. => true
  | _ => false

end ClassCatalog
