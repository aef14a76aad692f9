import Projection.Data
import Projection.Host

/-!
Types and scopes as documents describe them.
-/

namespace Projection

open Data

def Visibility.words : List (String × Visibility) :=
  [("public", .public), ("internal", .internal), ("protected", .protected), ("private", .private)]

def MemberKind.words : List (String × MemberKind) :=
  [("property", .property), ("field", .field), ("method", .method), ("enum_member", .enumMember)]

def TypeDeclKind.words : List (String × TypeDeclKind) :=
  [("class", .class), ("struct", .struct), ("record", .record), ("record_struct", .recordStruct),
    ("enum", .enum), ("interface", .interface)]

def LocalKind.words : List (String × LocalKind) :=
  [("local", .variable), ("parameter", .parameter)]

def MemberDecl.ofData? (d : Data) : Option MemberDecl :=
  match record? ["name", "kind", "type", "is_static", "is_const", "visibility"] d with
  | some [name, kind, type, isStatic, isConst, visibility] => do
      some
        { name := ← required? text? name
          kind := ← given? (word? MemberKind.words) .property kind
          type := ← given? text? "" type
          isStatic := ← given? flag? false isStatic
          isConst := ← given? flag? false isConst
          visibility := ← given? (word? Visibility.words) .public visibility }
  | _ => none

def TypeDecl.ofData? (d : Data) : Option TypeDecl :=
  match record? ["name", "namespace", "kind", "members"] d with
  | some [name, space, kind, members] => do
      some
        { name := ← required? text? name
          «namespace» := ← given? (nullable? text?) none space
          kind := ← given? (word? TypeDeclKind.words) .class kind
          members := ← given? (listOf? MemberDecl.ofData?) [] members }
  | _ => none

def Local.ofData? (d : Data) : Option Local :=
  match record? ["name", "kind", "type", "is_const", "value"] d with
  | some [name, kind, type, isConst, value] => do
      some
        { name := ← required? text? name
          kind := ← given? (word? LocalKind.words) .variable kind
          type := ← required? text? type
          isConst := ← given? flag? false isConst
          value := ← given? (nullable? text?) none value }
  | _ => none

def Scope.ofData? (d : Data) : Option Scope :=
  match record? ["locals", "enclosing_type"] d with
  | some [locals, enclosing] => do
      some
        { locals := ← given? (listOf? Local.ofData?) [] locals
          enclosing := ← given? (nullable? text?) none enclosing }
  | _ => none

end Projection
