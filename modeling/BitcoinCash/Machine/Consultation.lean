import BitcoinCash.Machine.Trace

namespace BitcoinCash

namespace SignatureCheck

def matchQuestions (env : Environment) (base : Script) :
    (keys signatures : List Bytes) → List Question
  | _, [] => []
  | [], _ :: _ => []
  | key :: keys, sig :: sigs =>
    let asked : Run (List Question) := do
      Encoding.checkSignature env.flags sig
      Encoding.checkKey env.flags key
      if sig.isEmpty then return []
      return [⟨sig, key, ← env.codeFor base sig⟩]
    match asked, attempt env base sig key with
    | .ok qs, .ok valid =>
      let left := if valid then sigs else sig :: sigs
      if keys.length < left.length then qs else qs ++ matchQuestions env base keys left
    | _, _ => []

end SignatureCheck

def Instruction.questions (env : Environment) (here : Place) (i : Instruction) (f : Frame) :
    List Question :=
  if env.context.isNone then []
  else
    match i.accept env f with
    | .error _ => []
    | .ok f =>
      if !f.running then []
      else
        match Operation.ofOpcode i.op with
        | .checkSig _ =>
          match SignatureCheck.question env here f with
          | .ok (_, q) => q.toList
          | .error _ => []
        | .checkMultiSig _ =>
          match SignatureCheck.ballot env here f with
          | .ok (b, _) => SignatureCheck.matchQuestions env b.base b.keys b.signatures
          | .error _ => []
        | _ => []

def Progress.questions (env : Environment) (p : Progress) : List Question :=
  match p.settle env with
  | .error _ => []
  | .ok p =>
    match p.program[p.offset]? with
    | none => []
    | some i => i.questions env ⟨p.program, p.offset⟩ p.frame

def Progress.asked (env : Environment) (p : Progress) : List Question :=
  (p :: (p.trace env).1).flatMap (questions env)

end BitcoinCash
