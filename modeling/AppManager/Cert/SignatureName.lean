import AppManager.Utils.PathEntry

/-! The names of signature files: `signature-NAME.p7` in any directory, where the
name `author` is the one of the author. -/

namespace AppManager.Cert
open AppManager.Lib AppManager.Utils

inductive SignatureType where
  | none
  | author
  | distributor
  deriving DecidableEq, Repr

def signatureExtension : Bytes := ascii ".p7"
def signaturePrefix : Bytes := ascii "signature-"
def authorName : Bytes := ascii "author"

/-- `ISEQ(&path[position], text)`. -/
def isEqAt (path : Bytes) (position : Nat) (text : Bytes) : Bool :=
  (path.drop position).take text.length = text

def startOfName (path : Bytes) : Nat → Nat
  | 0 => 0
  | position + 1 => if path[position]? = some slash then position + 1 else startOfName path position

def signatureNameTypeLength (path : Bytes) (length : Nat) : SignatureType :=
  if signatureExtension.length ≤ length then
    let posext := length - signatureExtension.length
    if isEqAt path posext signatureExtension then
      let posbeg := startOfName path posext
      let len := posext - posbeg
      if signaturePrefix.length ≤ len ∧ isEqAt path posbeg signaturePrefix then
        let posbeg := posbeg + signaturePrefix.length
        let len := len - signaturePrefix.length
        if len = authorName.length ∧ isEqAt path posbeg authorName then .author else .distributor
      else .none
    else .none
  else .none

def signatureNameType (path : Bytes) : SignatureType :=
  signatureNameTypeLength (cstr path) (cstr path).length

example : signatureNameType (ascii "meta/signature-author.p7") = .author := by decide +kernel
example : signatureNameType (ascii "signature-author/x.p7") = .none := by decide +kernel

end AppManager.Cert
