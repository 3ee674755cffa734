namespace OndaDb

inductive OndaError
  | conflict (text : String)
  | invalidArgs (text : String)
  | invalidDb (text : String)
  | poisoned (text : String)
  | readOnly (text : String)
  | tooLarge (text : String)
  | corruption (text : String)
  | unsupportedFormat (text : String)
  | io (text : String)
  | alreadyExists (text : String)
  | notFound
  | memory (text : String)
  | memoryLimit (text : String)
  | locked (text : String)
  | busy (text : String)
  | formatUpgradeUnsupported (text : String)
  | notEntity (text : String)
  | unknown (text : String)
  deriving DecidableEq, Repr

namespace OndaError

def code : OndaError → Int
  | memory _ => -1
  | invalidArgs _ => -2
  | notFound => -3
  | io _ => -4
  | corruption _ => -5
  | alreadyExists _ => -6
  | conflict _ => -7
  | tooLarge _ => -8
  | memoryLimit _ => -9
  | invalidDb _ => -10
  | unknown _ => -11
  | locked _ => -12
  | readOnly _ => -13
  | busy _ => -14
  | poisoned _ => -15
  | unsupportedFormat _ => -16
  | formatUpgradeUnsupported _ => -17
  | notEntity _ => -18

-- The error behind a code that crossed threads, without its text.
def fromCode : Int → OndaError
  | -1 => memory ""
  | -2 => invalidArgs ""
  | -3 => notFound
  | -4 => io "io error"
  | -5 => corruption ""
  | -6 => alreadyExists ""
  | -7 => conflict ""
  | -8 => tooLarge ""
  | -9 => memoryLimit ""
  | -10 => invalidDb ""
  | -12 => locked ""
  | -13 => readOnly ""
  | -14 => busy ""
  | -15 => poisoned ""
  | -16 => unsupportedFormat ""
  | -17 => formatUpgradeUnsupported ""
  | -18 => notEntity ""
  | code => unknown s!"code {code}"

end OndaError

end OndaDb
