import Pseudocode.Rule.Basic

/-! # What the rules of both conventions write alike

Headers of loops and branches, output and calls. -/

namespace Pseudocode

open Text

/-- A bound moved by one: a number where the bound is one, a sum or difference otherwise. Numbers are words of
64 bits, and the last one is followed by the first. -/
def offsetBound (delta : Int) (bound : Text) : Text :=
  let bound := trim bound
  match signed64? bound with
  | some n => ofInt ((n + delta).bmod unsignedLimit)
  | none => if delta < 0 then bound ++ " - " ++ ofInt (-delta) else bound ++ " + " ++ ofInt delta

def minusOne (bound : Text) : Text := offsetBound (-1) bound

def plusOne (bound : Text) : Text := offsetBound 1 bound

namespace Context

def collectionLoop (cx : Context) (var collection : Text) : Translation :=
  match cx.style.collectionLoop with
  | .forEach => .header [cx.line ("FOR EACH " ++ var ++ " IN " ++ collection)] (.loop var)
  | .iterator =>
    .header
      [cx.line (collection ++ ".resetNext()"),
       cx.line ("loop " ++ cx.kw .whileWord ++ " " ++ collection ++ ".hasNext()"),
       cx.assignInner var (collection ++ ".getNext()")]
      (.loop var)

def conditionHeader (cx : Context) (first last : Keyword) (cond : Text) : Text :=
  cx.line (cx.kw first ++ " " ++ cx.expr cond ++ " " ++ cx.kw last)

def ifHeader (cx : Context) (cond : Text) : Text := cx.conditionHeader .ifWord .thenWord cond

def elseIfHeader (cx : Context) (cond : Text) : Text := cx.conditionHeader .elseIfWord .thenWord cond

def whileHeader (cx : Context) (cond : Text) : Text := cx.conditionHeader .whileWord .doWord cond

def wordHeader (cx : Context) (word : Keyword) (kind : Kind) : Translation :=
  .header [cx.line (cx.kw word)] { kind }

def output (cx : Context) (args : List Text) : Translation :=
  let shown : Text := if args.isEmpty then "\"\"" else join ", " args
  .statement [cx.line (cx.kw .outputWord ++ " " ++ shown)]

def callLine (cx : Context) (call : Text) : Text :=
  cx.line (if cx.style.callKeyword then cx.kw .callWord ++ " " ++ cx.expr call else cx.expr call)

end Context

end Pseudocode
