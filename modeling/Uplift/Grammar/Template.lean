import Uplift.Grammar.Parse

namespace Uplift.Grammar

open Parse

/--
Reads the template text behind the current token, which is a backquote or the brace that ends a
hole. Answers with whether a hole follows. Only a tagged template can hold malformed escapes.
-/
def quasi (tagged : Bool) : Parse (Node × Bool) := do
  let s ← state
  let lo := s.hi
  let (body, ending, rest) := Quoted.scanTemplate false s.rest
  let hi := lo + Letter.width body
  let n := Node.mk (.quasi (String.ofList body)) ⟨lo, hi⟩ []
  unless tagged do
    if let some fault := Quoted.fault? .template lo body then failAt fault.offset fault.complaint
  match ending with
  | .unterminated => failAt lo .unterminatedTemplate
  | .hole => do
    goto (hi + 2) rest
    return (n, true)
  | .quote => do
    goto (hi + 1) rest
    return (n, false)

def templateParts (tagged : Bool) (hole : Parse Node) : Parse (List Node) := do
  let (first, more) ← quasi tagged
  loop (fun (done, more) => do
    if more then
      let e ← hole
      unless ← isPunct "\x7d" do fail (.expected "\x7d")
      let (q, more) ← quasi tagged
      return .inl (done ++ [e, q], more)
    else return .inr done) ([first], more)

def template (go : Level) (tagged : Bool) : Parse Node := do
  let lo ← here
  let hole := under (fun c => { c with allowIn := true, colonAhead := false }) (go .expression)
  let parts ← templateParts tagged hole
  node .template lo parts

end Uplift.Grammar
