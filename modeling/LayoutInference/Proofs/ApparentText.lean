import Mathlib
import LayoutInference.Apparent

/-!
# What the text of an apparent type tells

Apparent types agree when they are written alike. Names of members stand in the text as they are, so a
name may spell what else a text is made of, and then types agree that are not alike
(`Apparent.Alike`). This module says which names do that.

A text is put together from pieces (`Apparent.pieces`), and types have the same pieces exactly if they
are alike (`Apparent.pieces_eq_iff`), since a type can be built from its pieces one by one. What is left
is whether a text can be cut into pieces in one way only. `Apparent.Reads` says which pieces may stand one
behind the other. A name is *clear* at a place if its text can be read there as the name of a member and
as nothing else (`Apparent.ClearAt`).

* With clear names a text has one reading (`Apparent.Reads.eq_of_spell_eq`). Where two readings part,
  one has a key and the other a shorter key or the end of an object type. The rest of the longer key is
  read in the other reading then, and can be read so that it ends in a key (`Apparent.Reads.cut`): the
  longer key is not clear.
* Every name that is not clear makes types that agree and are not alike
  (`Apparent.exists_agrees_not_alike`), as every reading of a whole text is one of a type
  (`Apparent.Reads.exists_pieces`).
-/

namespace LayoutInference.Apparent

/-! ## Structural equality -/

mutual

/-- Structural equality: the same kind; for objects the same number of members with pairwise equal
names and types that are alike, in order; for arrays elements that are alike. The nodes that members
were read from do not count. -/
def Alike : Apparent → Apparent → Prop
  | .any, .any => True
  | .string, .string => True
  | .number, .number => True
  | .boolean, .boolean => True
  | .void, .void => True
  | .null, .null => True
  | .undefined, .undefined => True
  | .function, .function => True
  | .object members, .object members' => MembersAlike members members'
  | .array elem, .array elem' => elem.Alike elem'
  | _, _ => False

/-- Structural equality of lists of members. -/
def MembersAlike : List (Member Apparent) → List (Member Apparent) → Prop
  | [], [] => True
  | ⟨name, type, _⟩ :: members, ⟨name', type', _⟩ :: members' =>
    name = name' ∧ type.Alike type' ∧ MembersAlike members members'
  | _, _ => False

end

mutual

/-- The type without the nodes that members were read from. -/
def erase : Apparent → Apparent
  | .object members => .object (eraseMembers members)
  | .array elem => .array elem.erase
  | a => a

/-- The members without their nodes. -/
def eraseMembers : List (Member Apparent) → List (Member Apparent)
  | [] => []
  | ⟨name, type, _⟩ :: members => ⟨name, type.erase, none⟩ :: eraseMembers members

end

mutual

/-- Types are alike exactly if they differ in nodes alone. -/
theorem alike_iff (a b : Apparent) : a.Alike b ↔ a.erase = b.erase := by
  cases a <;> cases b
  case object.object ms ns => simpa [Alike, erase] using membersAlike_iff ms ns
  case array.array a b => simpa [Alike, erase] using alike_iff a b
  all_goals simp [Alike, erase]

/-- Lists of members are alike exactly if they are the same without their nodes. -/
theorem membersAlike_iff (ms ns : List (Member Apparent)) :
    MembersAlike ms ns ↔ eraseMembers ms = eraseMembers ns := by
  match ms, ns with
  | [], [] => simp [MembersAlike, eraseMembers]
  | [], _ :: _ => simp [MembersAlike, eraseMembers]
  | _ :: _, [] => simp [MembersAlike, eraseMembers]
  | m :: ms, n :: ns =>
    simp [MembersAlike, eraseMembers, alike_iff m.type n.type, membersAlike_iff ms ns, and_assoc]

end

/-! ## Pieces -/

/-- The types that are written as a single word. -/
inductive Word where
  | any
  | string
  | number
  | boolean
  | void
  | null
  | undefined
  | function
deriving DecidableEq, Repr

/-- The type that a word stands for. -/
def Word.type : Word → Apparent
  | .any => .any
  | .string => .string
  | .number => .number
  | .boolean => .boolean
  | .void => .void
  | .null => .null
  | .undefined => .undefined
  | .function => .function

/-- The pieces that the text of a type is put together from. -/
inductive Piece where
  | word (w : Word)
  | opening
  | key (name : String)
  | separator
  | closing
  | brackets
deriving DecidableEq, Repr

/-- The text of a piece. -/
def Piece.text : Piece → List Char
  | .word w => w.type.text.toList
  | .opening => ['\x7b']
  | .key name => name.toList ++ [':', ' ']
  | .separator => [';', ' ']
  | .closing => ['\x7d']
  | .brackets => ['[', ']']

/-- The text of a list of pieces. -/
def spell (ps : List Piece) : List Char := ps.flatMap Piece.text

mutual

/-- The pieces of a type. -/
def pieces : Apparent → List Piece
  | .any => [.word .any]
  | .string => [.word .string]
  | .number => [.word .number]
  | .boolean => [.word .boolean]
  | .void => [.word .void]
  | .null => [.word .null]
  | .undefined => [.word .undefined]
  | .function => [.word .function]
  | .object [] => [.opening, .closing]
  | .object (⟨name, type, _⟩ :: members) =>
    .opening :: .key name :: (type.pieces ++ laterPieces members)
  | .array elem => elem.pieces ++ [.brackets]

/-- The pieces of an object type behind its first member. -/
def laterPieces : List (Member Apparent) → List Piece
  | [] => [.closing]
  | ⟨name, type, _⟩ :: members => .separator :: .key name :: (type.pieces ++ laterPieces members)

end

@[simp] theorem spell_nil : spell [] = [] := rfl

@[simp] theorem spell_cons (p : Piece) (ps : List Piece) : spell (p :: ps) = p.text ++ spell ps := rfl

@[simp] theorem spell_append (ps qs : List Piece) : spell (ps ++ qs) = spell ps ++ spell qs :=
  List.flatMap_append

/-- No piece is empty. -/
theorem Piece.text_ne_nil (p : Piece) : p.text ≠ [] := by
  cases p with
  | word w => cases w <;> decide
  | key name => simp [text]
  | _ => decide

/-- A text is at least as long as the number of its pieces. -/
theorem length_le_spell (ps : List Piece) : ps.length ≤ (spell ps).length := by
  induction ps with
  | nil => rfl
  | cons p ps ih =>
    have hp := List.length_pos_iff.mpr p.text_ne_nil
    rw [spell_cons, List.length_append, List.length_cons]
    omega

/-- Only the empty list of pieces has an empty text. -/
theorem eq_nil_of_spell_eq_nil {ps : List Piece} (h : spell ps = []) : ps = [] := by
  have hlength := length_le_spell ps
  rw [h, List.length_nil, Nat.le_zero] at hlength
  exact List.eq_nil_of_length_eq_zero hlength

mutual

/-- The pieces of a type spell its text. -/
theorem spell_pieces (a : Apparent) : spell a.pieces = a.text.toList := by
  match a with
  | .any | .string | .number | .boolean | .void | .null | .undefined | .function =>
    simp [pieces, Piece.text, Word.type]
  | .object [] => simp [pieces, Piece.text, text, memberTexts]
  | .object (⟨name, type, node⟩ :: members) =>
    have htype := spell_pieces type
    have hlater := spell_laterPieces members type.text
    simpa [pieces, Piece.text, text, memberTexts, htype] using hlater.symm
  | .array elem =>
    have helem := spell_pieces elem
    simp [pieces, Piece.text, text, helem]

/-- The text of the members, the first of them given. -/
theorem spell_laterPieces (members : List (Member Apparent)) (first : String) :
    ("; ".intercalate (first :: memberTexts members)).toList ++ ['\x7d']
      = first.toList ++ spell (laterPieces members) := by
  match members with
  | [] => simp [laterPieces, Piece.text, memberTexts]
  | ⟨name, type, node⟩ :: members =>
    have htype := spell_pieces type
    have hlater := spell_laterPieces members type.text
    simpa [laterPieces, Piece.text, memberTexts, htype] using hlater

end

/-- Types agree if their pieces spell the same text. -/
theorem agrees_iff (a b : Apparent) : a.agrees b = true ↔ spell a.pieces = spell b.pieces := by
  rw [agrees, decide_eq_true_eq, ← String.toList_inj, spell_pieces, spell_pieces]

/-! ## Building types from pieces -/

/-- An object type in the making: the members that are complete, and the name of the one whose type is
being read. -/
structure Frame where
  members : List (Member Apparent)
  name : String

/-- What has been read of a text: the object types in the making, the innermost first, and what is
known of the type inside. -/
inductive Config where
  | type (frames : List Frame)
  | opened (frames : List Frame)
  | next (frames : List Frame) (members : List (Member Apparent))
  | typed (frames : List Frame) (a : Apparent)

/-- The members with one more, of which the type is known now. -/
def Frame.complete (f : Frame) (a : Apparent) : List (Member Apparent) :=
  f.members ++ [⟨f.name, a, none⟩]

/-- Read one piece more. -/
def Config.advance : Config → Piece → Option Config
  | .type fs, .word w => some (.typed fs w.type)
  | .type fs, .opening => some (.opened fs)
  | .opened fs, .key name => some (.type (⟨[], name⟩ :: fs))
  | .opened fs, .closing => some (.typed fs (.object []))
  | .next fs members, .key name => some (.type (⟨members, name⟩ :: fs))
  | .typed fs a, .brackets => some (.typed fs (.array a))
  | .typed (f :: fs) a, .separator => some (.next fs (f.complete a))
  | .typed (f :: fs) a, .closing => some (.typed fs (.object (f.complete a)))
  | _, _ => none

/-- Read a list of pieces. -/
def Config.run (c : Config) (ps : List Piece) : Option Config := ps.foldlM advance c

/-- A list is read piece by piece. -/
theorem Config.run_cons {c c' : Config} {p : Piece} (h : c.advance p = some c') (ps : List Piece) :
    c.run (p :: ps) = c'.run ps := by
  simp [run, h]

mutual

/-- Reading the pieces of a type gives the type back. -/
theorem run_pieces (a : Apparent) (fs : List Frame) (rest : List Piece) :
    (Config.type fs).run (a.pieces ++ rest) = (Config.typed fs a.erase).run rest := by
  match a with
  | .any | .string | .number | .boolean | .void | .null | .undefined | .function | .object [] => rfl
  | .object (⟨name, type, node⟩ :: members) =>
    rw [pieces, List.cons_append, List.cons_append, Config.run_cons rfl, Config.run_cons rfl,
      List.append_assoc, run_pieces type, run_laterPieces members]
    rfl
  | .array elem =>
    rw [pieces, List.append_assoc, run_pieces elem]
    rfl

/-- The pieces behind the first member complete the object type. -/
theorem run_laterPieces (members : List (Member Apparent)) (f : Frame) (a : Apparent)
    (fs : List Frame) (rest : List Piece) :
    (Config.typed (f :: fs) a).run (laterPieces members ++ rest)
      = (Config.typed fs (.object (f.complete a ++ eraseMembers members))).run rest := by
  match members with
  | [] =>
    rw [laterPieces, eraseMembers, List.append_nil]
    rfl
  | ⟨name, type, node⟩ :: members =>
    rw [laterPieces, List.cons_append, List.cons_append, Config.run_cons rfl, Config.run_cons rfl,
      List.append_assoc, run_pieces type, run_laterPieces members, eraseMembers]
    simp [Frame.complete]

end

mutual

/-- Pieces do not show the nodes. -/
theorem pieces_erase (a : Apparent) : a.erase.pieces = a.pieces := by
  match a with
  | .any | .string | .number | .boolean | .void | .null | .undefined | .function | .object [] => rfl
  | .object (⟨name, type, node⟩ :: members) =>
    rw [erase, eraseMembers, pieces, pieces, pieces_erase type, laterPieces_erase members]
  | .array elem => rw [erase, pieces, pieces, pieces_erase elem]

/-- The nodes of members do not show in the pieces. -/
theorem laterPieces_erase (members : List (Member Apparent)) :
    laterPieces (eraseMembers members) = laterPieces members := by
  match members with
  | [] => rfl
  | ⟨name, type, node⟩ :: members =>
    rw [eraseMembers, laterPieces, laterPieces, pieces_erase type, laterPieces_erase members]

end

/-- Types have the same pieces exactly if they are alike. -/
theorem pieces_eq_iff (a b : Apparent) : a.pieces = b.pieces ↔ a.Alike b := by
  rw [alike_iff]
  constructor
  · intro h
    have ha := run_pieces a [] []
    rw [h, run_pieces b] at ha
    exact (Config.typed.inj (Option.some.inj ha)).2.symm
  · intro h
    rw [← pieces_erase a, h, pieces_erase]

/-! ## Readings of a text -/

/-- What may stand at a place of a text: a type, the first member of an object type or its end, a
further member, or what follows a type. -/
inductive Place where
  | type
  | opened
  | next
  | typed
deriving DecidableEq, Repr

/-- `Step N P d p Q e`: at the place `P` inside `d` object types the piece `p` may stand, and behind it is
the place `Q` inside `e` object types. Names of members satisfy `N` at their places. -/
inductive Step (N : Place → String → Prop) : Place → Nat → Piece → Place → Nat → Prop where
  | word (w : Word) (d : Nat) : Step N .type d (.word w) .typed d
  | opening (d : Nat) : Step N .type d .opening .opened (d + 1)
  | first {name : String} (h : N .opened name) (d : Nat) : Step N .opened d (.key name) .type d
  | later {name : String} (h : N .next name) (d : Nat) : Step N .next d (.key name) .type d
  | empty (d : Nat) : Step N .opened (d + 1) .closing .typed d
  | closing (d : Nat) : Step N .typed (d + 1) .closing .typed d
  | separator (d : Nat) : Step N .typed (d + 1) .separator .next (d + 1)
  | brackets (d : Nat) : Step N .typed d .brackets .typed d

/-- `Reads N P d ps Q e`: the pieces `ps` may stand one after the other from the place `P` inside `d`
object types to the place `Q` inside `e` object types. -/
inductive Reads (N : Place → String → Prop) : Place → Nat → List Piece → Place → Nat → Prop where
  | nil (P : Place) (d : Nat) : Reads N P d [] P d
  | cons {P Q R : Place} {d e k : Nat} {p : Piece} {ps : List Piece} (h : Step N P d p Q e)
    (hrest : Reads N Q e ps R k) : Reads N P d (p :: ps) R k

/-- The names of members that are no condition. -/
abbrev AnyName (_ : Place) (_ : String) : Prop := True

section Readings

variable {N N' : Place → String → Prop} {P Q R : Place} {d e k : Nat} {p : Piece} {ps qs : List Piece}

/-- The places at which a member may be named. -/
def Place.Names (P : Place) : Prop := P = .opened ∨ P = .next

/-- The name of a member may stand where one is named. -/
theorem Step.key (hP : P.Names) {name : String} (h : N P name) (d : Nat) :
    Step N P d (.key name) .type d := by
  rcases hP with rfl | rfl
  · exact .first h d
  · exact .later h d

/-- The condition on names may be weakened in a step. -/
theorem Step.imp (h : Step N P d p Q e) (himp : ∀ P name, N P name → N' P name) :
    Step N' P d p Q e := by
  cases h with
  | first h => exact .first (himp _ _ h) _
  | later h => exact .later (himp _ _ h) _
  | _ => constructor

/-- A step may be made inside more object types. -/
theorem Step.shift (h : Step N P d p Q e) (k : Nat) : Step N P (d + k) p Q (e + k) := by
  cases h with
  | first h => exact .first h _
  | later h => exact .later h _
  | word w => exact .word w _
  | brackets => exact .brackets _
  | opening => rw [Nat.add_right_comm]; exact .opening _
  | empty => rw [Nat.add_right_comm]; exact .empty _
  | closing => rw [Nat.add_right_comm]; exact .closing _
  | separator => rw [Nat.add_right_comm]; exact .separator _

/-- One step is a reading of one piece. -/
theorem Reads.single (h : Step N P d p Q e) : Reads N P d [p] Q e := .cons h (.nil _ _)

/-- Readings may be put one after the other. -/
theorem Reads.append (h : Reads N P d ps Q e) (h' : Reads N Q e qs R k) :
    Reads N P d (ps ++ qs) R k := by
  induction h with
  | nil => exact h'
  | cons hstep _ ih => exact .cons hstep (ih h')

/-- The condition on names may be weakened in a reading. -/
theorem Reads.imp (h : Reads N P d ps Q e) (himp : ∀ P name, N P name → N' P name) :
    Reads N' P d ps Q e := by
  induction h with
  | nil => exact .nil _ _
  | cons hstep _ ih => exact .cons (hstep.imp himp) ih

/-- Pieces may also stand inside of more object types. -/
theorem Reads.shift (h : Reads N P d ps Q e) (k : Nat) : Reads N P (d + k) ps Q (e + k) := by
  induction h with
  | nil => exact .nil _ _
  | cons hstep _ ih => exact .cons (hstep.shift k) ih

end Readings

mutual

/-- Whether all names of members satisfy `N`, the first one of an object type at one place and the others
at another. -/
def Named (N : Place → String → Prop) : Apparent → Prop
  | .object [] => True
  | .object (⟨name, type, _⟩ :: members) => N .opened name ∧ type.Named N ∧ LaterNamed N members
  | .array elem => elem.Named N
  | _ => True

/-- The same of the members behind the first. -/
def LaterNamed (N : Place → String → Prop) : List (Member Apparent) → Prop
  | [] => True
  | ⟨name, type, _⟩ :: members => N .next name ∧ type.Named N ∧ LaterNamed N members

end

mutual

/-- The pieces of a type may stand where a type may. -/
theorem Named.reads {N : Place → String → Prop} {a : Apparent} (h : a.Named N) (d : Nat) :
    Reads N .type d a.pieces .typed d := by
  match a with
  | .any | .string | .number | .boolean | .void | .null | .undefined | .function =>
    exact .single (.word _ d)
  | .object [] => exact .cons (.opening d) (.single (.empty d))
  | .object (⟨name, type, node⟩ :: members) =>
    obtain ⟨hname, htype, hlater⟩ := h
    exact .cons (.opening d) (.cons (.first hname _) ((htype.reads _).append (hlater.reads d)))
  | .array elem =>
    have helem : elem.Named N := h
    exact (helem.reads d).append (.single (.brackets d))

/-- The members behind the first can be read to the end of their object type. -/
theorem LaterNamed.reads {N : Place → String → Prop} {members : List (Member Apparent)}
    (h : LaterNamed N members) (d : Nat) : Reads N .typed (d + 1) (laterPieces members) .typed d := by
  match members with
  | [] => exact .single (.closing d)
  | ⟨name, type, node⟩ :: members =>
    obtain ⟨hname, htype, hlater⟩ := h
    exact .cons (.separator d) (.cons (.later hname _) ((htype.reads _).append (hlater.reads d)))

end

/-! ## Every reading of a whole text is one of a type -/

/-- The pieces of members behind each of which another member follows. -/
def soFar (members : List (Member Apparent)) : List Piece :=
  members.flatMap fun m => .key m.name :: (m.type.pieces ++ [.separator])

/-- One more member stands between the others and the end. -/
theorem laterPieces_concat (members : List (Member Apparent)) (m : Member Apparent) :
    laterPieces (members ++ [m])
      = .separator :: (soFar members ++ .key m.name :: (m.type.pieces ++ [.closing])) := by
  induction members with
  | nil => rfl
  | cons m' members ih => rw [List.cons_append, laterPieces, ih]; simp [soFar]

/-- One more member of an object type stands between the others and the end. -/
theorem pieces_object_concat (members : List (Member Apparent)) (m : Member Apparent) :
    (Apparent.object (members ++ [m])).pieces
      = .opening :: (soFar members ++ .key m.name :: (m.type.pieces ++ [.closing])) := by
  cases members with
  | nil => rfl
  | cons m' members => rw [List.cons_append, pieces, laterPieces_concat]; simp [soFar]

section Named

variable {N : Place → String → Prop}

/-- The place at which the member behind the given ones is named. -/
def placeAfter (members : List (Member Apparent)) : Place := if members = [] then .opened else .next

/-- One more member may be named behind others. -/
theorem laterNamed_concat {members : List (Member Apparent)} (h : LaterNamed N members)
    {m : Member Apparent} (hname : N .next m.name) (htype : m.type.Named N) :
    LaterNamed N (members ++ [m]) := by
  induction members with
  | nil => exact ⟨hname, htype, trivial⟩
  | cons m' members ih => exact ⟨h.1, h.2.1, ih h.2.2⟩

/-- One more member of an object type may be named at the place behind the others. -/
theorem named_object_concat {members : List (Member Apparent)} (h : (Apparent.object members).Named N)
    {m : Member Apparent} (hname : N (placeAfter members) m.name) (htype : m.type.Named N) :
    (Apparent.object (members ++ [m])).Named N := by
  cases members with
  | nil => exact ⟨hname, htype, trivial⟩
  | cons m' members => exact ⟨h.1, h.2.1, laterNamed_concat h.2.2 hname htype⟩

end Named

namespace Config

/-- The pieces of object types in the making. -/
def stackPieces : List Frame → List Piece
  | [] => []
  | f :: fs => stackPieces fs ++ .opening :: (soFar f.members ++ [.key f.name])

/-- The pieces that have been read. -/
def pieces : Config → List Piece
  | .type fs => stackPieces fs
  | .opened fs => stackPieces fs ++ [.opening]
  | .next fs members => stackPieces fs ++ .opening :: soFar members
  | .typed fs a => stackPieces fs ++ a.pieces

variable {N : Place → String → Prop}

/-- The names in an object type in the making satisfy `N`. -/
structure Stands (N : Place → String → Prop) (f : Frame) : Prop where
  members : (Apparent.object f.members).Named N
  name : N (placeAfter f.members) f.name

/-- An object type in the making is named as it should with one more type. -/
theorem Stands.complete {f : Frame} (h : Stands N f) {a : Apparent} (ha : a.Named N) :
    (Apparent.object (f.complete a)).Named N :=
  named_object_concat h.members h.name ha

/-- `At N c P d`: what has been read ends at the place `P` inside `d` object types, and its names satisfy
`N`. -/
inductive At (N : Place → String → Prop) : Config → Place → Nat → Prop where
  | type {fs : List Frame} {d : Nat} (hd : fs.length = d) (hfs : ∀ f ∈ fs, Stands N f) :
    At N (.type fs) .type d
  | opened {fs : List Frame} {d : Nat} (hd : fs.length + 1 = d) (hfs : ∀ f ∈ fs, Stands N f) :
    At N (.opened fs) .opened d
  | next {fs : List Frame} {members : List (Member Apparent)} {d : Nat} (hd : fs.length + 1 = d)
    (hfs : ∀ f ∈ fs, Stands N f) (hne : members ≠ []) (h : (Apparent.object members).Named N) :
    At N (.next fs members) .next d
  | typed {fs : List Frame} {a : Apparent} {d : Nat} (hd : fs.length = d)
    (hfs : ∀ f ∈ fs, Stands N f) (h : a.Named N) : At N (.typed fs a) .typed d

variable {c : Config} {P Q : Place} {d e : Nat}

/-- A member more of an object type in the making. -/
theorem At.key {fs : List Frame} {members : List (Member Apparent)} {name : String}
    (hd : fs.length + 1 = d) (hfs : ∀ f ∈ fs, Stands N f)
    (hmembers : (Apparent.object members).Named N) (hname : N (placeAfter members) name) :
    At N (.type (⟨members, name⟩ :: fs)) .type d :=
  .type hd (List.forall_mem_cons.mpr ⟨⟨hmembers, hname⟩, hfs⟩)

/-- What may stand next can be read. -/
theorem At.step {p : Piece} (h : At N c P d) (hstep : Step N P d p Q e) :
    ∃ c', At N c' Q e ∧ c'.pieces = c.pieces ++ [p] := by
  cases h with
  | @type fs _ hd hfs =>
    cases hstep with
    | word w =>
      refine ⟨.typed fs w.type, .typed hd hfs (by cases w <;> trivial), ?_⟩
      cases w <;> rfl
    | opening => exact ⟨.opened fs, .opened (by rw [hd]) hfs, rfl⟩
  | @opened fs _ hd hfs =>
    cases hstep with
    | first hname =>
      refine ⟨.type (⟨[], _⟩ :: fs), At.key hd hfs trivial hname, ?_⟩
      simp [pieces, stackPieces, soFar]
    | empty =>
      refine ⟨.typed fs (.object []), .typed (Nat.succ.inj hd) hfs trivial, ?_⟩
      simp [pieces, Apparent.pieces]
  | @next fs members _ hd hfs hne hmembers =>
    cases hstep with
    | later hname =>
      have hplace : placeAfter members = .next := if_neg hne
      refine ⟨.type (⟨members, _⟩ :: fs), At.key hd hfs hmembers (hplace ▸ hname), ?_⟩
      simp [pieces, stackPieces]
  | @typed fs a _ hd hfs ha =>
    cases hstep with
    | brackets =>
      refine ⟨.typed fs (.array a), .typed hd hfs ha, ?_⟩
      simp [pieces, Apparent.pieces]
    | separator =>
      -- A member can only end inside an object type in the making.
      obtain ⟨f, fs, rfl⟩ := List.exists_cons_of_length_eq_add_one hd
      obtain ⟨hf, hfs⟩ := List.forall_mem_cons.mp hfs
      refine ⟨.next fs (f.complete a), .next hd hfs (by simp [Frame.complete]) (hf.complete ha), ?_⟩
      simp [pieces, stackPieces, soFar, Frame.complete]
    | closing =>
      obtain ⟨f, fs, rfl⟩ := List.exists_cons_of_length_eq_add_one hd
      obtain ⟨hf, hfs⟩ := List.forall_mem_cons.mp hfs
      refine ⟨.typed fs (.object (f.complete a)),
        .typed (Nat.succ.inj hd) hfs (hf.complete ha), ?_⟩
      rw [pieces, pieces, stackPieces, Frame.complete, pieces_object_concat]
      simp

/-- A list of pieces that may stand next can be read. -/
theorem At.reads {ps : List Piece} (h : At N c P d) (hreads : Reads N P d ps Q e) :
    ∃ c', At N c' Q e ∧ c'.pieces = c.pieces ++ ps := by
  induction hreads generalizing c with
  | nil => exact ⟨c, h, (List.append_nil _).symm⟩
  | cons hstep _ ih =>
    obtain ⟨c', h', hpieces'⟩ := h.step hstep
    obtain ⟨c'', h'', hpieces''⟩ := ih h'
    exact ⟨c'', h'', by rw [hpieces'', hpieces', List.append_assoc, List.singleton_append]⟩

end Config

/-- Pieces from the place of a type to the place behind it are the pieces of a type. -/
theorem Reads.exists_pieces {N : Place → String → Prop} {ps : List Piece}
    (h : Reads N .type 0 ps .typed 0) : ∃ a : Apparent, a.pieces = ps ∧ a.Named N := by
  have hstart : Config.At N (.type []) .type 0 := .type rfl (by simp)
  obtain ⟨c, hc, hpieces⟩ := hstart.reads h
  cases hc with
  | @typed fs a _ hd _ ha =>
    obtain rfl := List.length_eq_zero_iff.mp hd
    exact ⟨a, hpieces, ha⟩

/-! ## Clear names -/

/-- A name is clear at a place if all that its text can be read as there is the name of a member. -/
def ClearAt (P : Place) (name : String) : Prop :=
  ∀ d ps e, Reads AnyName P d ps .type e → spell ps = (Piece.key name).text → ps = [.key name]

/-- How two keys at the start of one text compare: one is the other, or goes on behind it. -/
theorem key_cases {k n x y : List Char} (h : k ++ ':' :: ' ' :: x = n ++ ':' :: ' ' :: y) :
    (k = n ∧ x = y)
      ∨ (∃ m, n = k ++ ':' :: ' ' :: m ∧ x = m ++ ':' :: ' ' :: y)
      ∨ ∃ m, k = n ++ ':' :: ' ' :: m ∧ y = m ++ ':' :: ' ' :: x := by
  have hbehind {m u v : List Char} (h : ':' :: ' ' :: u = m ++ ':' :: ' ' :: v) :
      (m = [] ∧ u = v) ∨ ∃ m', m = ':' :: ' ' :: m' ∧ u = m' ++ ':' :: ' ' :: v := by
    match m with
    | [] => exact .inl ⟨rfl, by simpa using h⟩
    | [c] => simp at h
    | c :: c' :: m' =>
      obtain ⟨rfl, rfl, hu⟩ : ':' = c ∧ ' ' = c' ∧ u = m' ++ ':' :: ' ' :: v := by simpa using h
      exact .inr ⟨m', rfl, hu⟩
  rcases List.append_eq_append_iff.mp h with ⟨m, rfl, hx⟩ | ⟨m, rfl, hy⟩
  · rcases hbehind hx with ⟨rfl, hxy⟩ | ⟨m', rfl, hxy⟩
    · exact .inl ⟨by simp, hxy⟩
    · exact .inr (.inl ⟨m', rfl, hxy⟩)
  · rcases hbehind hy with ⟨rfl, hxy⟩ | ⟨m', rfl, hxy⟩
    · exact .inl ⟨by simp, hxy.symm⟩
    · exact .inr (.inr ⟨m', rfl, hxy⟩)

/-- A character that is not in the first part of a text is behind it. -/
theorem append_of_notMem {c : Char} {u v x w : List Char} (hu : c ∉ u) (h : u ++ v = x ++ c :: w) :
    ∃ m, x = u ++ m ∧ v = m ++ c :: w := by
  rcases List.append_eq_append_iff.mp h with ⟨m, rfl, hv⟩ | ⟨m, rfl, hm⟩
  · exact ⟨m, rfl, hv⟩
  · cases m with
    | nil => exact ⟨[], by simp, hm.symm⟩
    | cons c' m =>
      obtain ⟨rfl, -⟩ := List.cons.inj hm
      exact absurd (by simp) hu

section Clear

variable {N : Place → String → Prop} {P Q R : Place} {d e k : Nat} {p q : Piece}
  {ps qs : List Piece} {name : String}

/-- Every step is one without a condition on names. -/
theorem Step.anyName (h : Step N P d p Q e) : Step AnyName P d p Q e := h.imp fun _ _ _ => trivial

/-- Only a key leads to the place of a type. -/
theorem Step.exists_key (h : Step N P d p .type e) : ∃ name, p = .key name ∧ N P name ∧ P.Names := by
  cases h with
  | first h => exact ⟨_, rfl, h, .inl rfl⟩
  | later h => exact ⟨_, rfl, h, .inr rfl⟩

/-- The name in a step satisfies the condition. -/
theorem Step.named (h : Step N P d (.key name) Q e) : N P name := by
  cases h with
  | first h => exact h
  | later h => exact h

/-- Only a key holds a colon. -/
theorem colon_notMem (h : ∀ name, p ≠ .key name) : ':' ∉ p.text := by
  cases p with
  | word w => cases w <;> decide
  | key name => exact absurd rfl (h name)
  | _ => decide

/-- A text that can be read up to a colon and a space can be read so that a key ends there: the colon
stands inside a key, which is cut. -/
theorem Reads.cut (h : Reads N P d ps Q e) {x y : List Char}
    (hspell : spell ps = x ++ ':' :: ' ' :: y) :
    ∃ qs k, Reads AnyName P d qs .type k ∧ spell qs = x ++ [':', ' '] := by
  induction h generalizing x with
  | nil => simp at hspell
  | @cons P Q R d e k p ps hstep hrest ih =>
    rw [spell_cons] at hspell
    by_cases hkey : ∃ name, p = .key name
    · obtain ⟨name, rfl⟩ := hkey
      have hany (name' : String) : Step AnyName P d (.key name') Q e := by
        cases hstep with
        | first => exact .first trivial _
        | later => exact .later trivial _
      obtain rfl : Q = .type := by cases hstep <;> rfl
      rw [Piece.text, List.append_assoc] at hspell
      -- The colon is the one behind the key, or comes later, or stands in the name.
      rcases key_cases hspell with ⟨rfl, -⟩ | ⟨m, rfl, hps⟩ | ⟨m, -, -⟩
      · exact ⟨[.key name], e, .single (hany name), by simp [Piece.text]⟩
      · obtain ⟨qs, k', hqs, hspell'⟩ := ih hps
        exact ⟨.key name :: qs, k', .cons (hany name) hqs, by simp [Piece.text, hspell']⟩
      · exact ⟨[.key (String.ofList x)], e, .single (hany _), by simp [Piece.text]⟩
    · have hcolon := colon_notMem fun name h => hkey ⟨name, h⟩
      obtain ⟨m, rfl, hps⟩ := append_of_notMem hcolon hspell
      obtain ⟨qs, k', hqs, hspell'⟩ := ih hps
      exact ⟨p :: qs, k', .cons hstep.anyName hqs, by simp [hspell']⟩

/-- Words are told from the text that starts with them. -/
theorem word_append_inj {w w' : Word} {x y : List Char}
    (h : (Piece.word w).text ++ x = (Piece.word w').text ++ y) : w = w' := by
  cases w <;> cases w' <;> simp [Piece.text, Word.type, Apparent.text] at h ⊢

/-- A word is told from the brace that opens an object type. -/
theorem word_append_ne {w : Word} {x y : List Char} :
    (Piece.word w).text ++ x ≠ Piece.opening.text ++ y := by
  cases w <;> simp [Piece.text, Word.type, Apparent.text]

/-- A clear name is not the start of a longer reading: no key that is shorter can stand in its place. -/
theorem ClearAt.not_longer (h : ClearAt P name) (hP : P.Names) {m y : List Char} {short : String}
    (hname : name.toList = short.toList ++ ':' :: ' ' :: m) (hreads : Reads N .type d ps Q e)
    (hspell : spell ps = m ++ ':' :: ' ' :: y) : False := by
  obtain ⟨qs, k, hqs, hcut⟩ := hreads.cut hspell
  have hlong := h d (.key short :: qs) k (.cons (.key hP trivial d) hqs)
    (by simp [Piece.text, hcut, hname])
  obtain ⟨-, rfl⟩ := List.cons.inj hlong
  simp at hcut

/-- Two clear names at the start of one text are one. -/
theorem ClearAt.key_eq (hP : P.Names) {name' : String} (h : ClearAt P name) (h' : ClearAt P name')
    (hps : Reads N .type d ps Q e) {d' e' : Nat} {Q' : Place} (hqs : Reads N .type d' qs Q' e')
    (hspell : spell (.key name :: ps) = spell (.key name' :: qs)) : name = name' := by
  simp only [spell_cons, Piece.text, List.append_assoc] at hspell
  rcases key_cases hspell with ⟨heq, -⟩ | ⟨m, hname', hm⟩ | ⟨m, hname, hm⟩
  · exact String.toList_inj.mp heq
  · exact (h'.not_longer hP hname' hps hm).elim
  · exact (h.not_longer hP hname hqs hm).elim

/-- A clear name is told from the end of an object type without members. -/
theorem ClearAt.ne_closing (h : ClearAt .opened name) (hqs : Reads N .typed d qs Q e) :
    spell (.key name :: ps) ≠ spell (.closing :: qs) := by
  intro hspell
  simp only [spell_cons, Piece.text, List.append_assoc] at hspell
  cases hname : name.toList with
  | nil => simp [hname] at hspell
  | cons c m =>
    obtain ⟨rfl, hm⟩ : c = '\x7d' ∧ spell qs = m ++ ':' :: ' ' :: spell ps := by
      simpa [hname, eq_comm] using hspell
    obtain ⟨us, k, hus, hcut⟩ := hqs.cut hm
    have hshort := h (d + 1) (.closing :: us) k (.cons (.empty d) hus)
      (by simp [Piece.text, hcut, hname])
    cases hshort

/-- At one place, the first piece of a text is told if names are clear. -/
theorem Step.piece_eq {Q' R' : Place} {d' e' k' : Nat} (h : Step ClearAt P d p Q e)
    (h' : Step ClearAt P d' q Q' e') (hps : Reads ClearAt Q e ps R k)
    (hqs : Reads ClearAt Q' e' qs R' k') (hspell : spell (p :: ps) = spell (q :: qs)) : p = q := by
  cases h with
  | word w =>
    cases h' with
    | word w' => rw [word_append_inj hspell]
    | opening => exact absurd hspell word_append_ne
  | opening =>
    cases h' with
    | word w => exact absurd hspell.symm word_append_ne
    | opening => rfl
  | first hname =>
    cases h' with
    | first hname' => rw [hname.key_eq (.inl rfl) hname' hps hqs hspell]
    | empty => exact absurd hspell (hname.ne_closing hqs)
  | later hname =>
    cases h' with
    | later hname' => rw [hname.key_eq (.inr rfl) hname' hps hqs hspell]
  | empty =>
    cases h' with
    | first hname => exact absurd hspell.symm (hname.ne_closing hps)
    | empty => rfl
  | closing | separator | brackets =>
    cases h' <;> simp [Piece.text] at hspell ⊢

/-- A piece leads from a place to one other place. -/
theorem Step.place_eq {Q' : Place} {d' e' : Nat} (h : Step N P d p Q e) (h' : Step N P d' p Q' e') :
    Q = Q' := by
  cases h <;> cases h' <;> rfl

/-- A text is read in one way if names are clear. -/
theorem Reads.eq_of_spell_eq {Q' : Place} {d' e' : Nat} (h : Reads ClearAt P d ps Q e)
    (h' : Reads ClearAt P d' qs Q' e') (hspell : spell ps = spell qs) : ps = qs := by
  induction h generalizing d' qs with
  | nil =>
    cases h' with
    | nil => rfl
    | @cons _ _ _ _ _ _ q => exact absurd hspell.symm (by simp [q.text_ne_nil])
  | @cons P Q R d e k p ps hstep hrest ih =>
    cases h' with
    | nil => exact absurd hspell (by simp [p.text_ne_nil])
    | cons hstep' hrest' =>
      obtain rfl := hstep.piece_eq hstep' hrest hrest' hspell
      obtain rfl := hstep.place_eq hstep'
      rw [ih hrest' (List.append_cancel_left hspell)]

/-! ## Names that are not clear -/

/-- What else a name that is not clear can be read as is more than one piece. -/
theorem exists_of_not_clearAt (h : ¬ ClearAt P name) :
    ∃ d ps e, Reads AnyName P d ps .type e ∧ spell ps = (Piece.key name).text ∧ 1 < ps.length := by
  simp only [ClearAt, not_forall] at h
  obtain ⟨d, ps, e, hreads, hspell, hne⟩ := h
  refine ⟨d, ps, e, hreads, hspell, ?_⟩
  match ps, hreads with
  | [], _ => exact absurd hspell.symm (Piece.text_ne_nil _)
  | [p], .cons hstep (.nil _ _) =>
    obtain ⟨name', rfl, -, -⟩ := hstep.exists_key
    have heq : name'.toList = name.toList := by simpa [Piece.text] using hspell
    rw [String.toList_inj.mp heq] at hne
    exact absurd rfl hne
  | _ :: _ :: _, _ => simp

/-- Names are clear, or there is a first one that is not. -/
theorem Reads.clear_or (h : Reads AnyName P d ps Q e) :
    Reads ClearAt P d ps Q e
      ∨ ∃ us name vs R k, ps = us ++ .key name :: vs ∧ Reads AnyName P d us R k
        ∧ ¬ ClearAt R name ∧ Reads AnyName .type k vs Q e := by
  induction h with
  | nil => exact .inl (.nil _ _)
  | @cons P Q R d e k p ps hstep hrest ih =>
    by_cases hclear : Step ClearAt P d p Q e
    · rcases ih with ih | ⟨us, name, vs, R', k', rfl, hus, hname, hvs⟩
      · exact .inl (.cons hclear ih)
      · exact .inr ⟨p :: us, name, vs, R', k', rfl, .cons hstep hus, hname, hvs⟩
    · refine .inr ?_
      cases hstep with
      | @first name =>
        exact ⟨[], name, ps, _, d, rfl, .nil _ _, fun h => hclear (.first h _), hrest⟩
      | @later name =>
        exact ⟨[], name, ps, _, d, rfl, .nil _ _, fun h => hclear (.later h _), hrest⟩
      | _ => exact absurd (by constructor) hclear

/-- A text that can be read can be read with clear names, perhaps inside of more object types. Each name
that is not clear is replaced by what else it can be read as. This gives more and more pieces, of which
there are at most as many as characters. -/
theorem Reads.exists_clear (h : Reads AnyName P d ps Q e) :
    ∃ k qs e', Reads ClearAt P (d + k) qs Q e' ∧ spell qs = spell ps := by
  induction hn : (spell ps).length - ps.length using Nat.strong_induction_on generalizing d ps e with
  | _ n ih =>
    rcases h.clear_or with h | ⟨us, name, vs, R, k, rfl, hus, hname, hvs⟩
    · exact ⟨0, ps, e, h, rfl⟩
    · obtain ⟨j, ws, i, hws, hspell, hlength⟩ := exists_of_not_clearAt hname
      have hmiddle : Reads AnyName R (k + j) ws .type (k + i) := by
        rw [Nat.add_comm k j, Nat.add_comm k i]
        exact hws.shift k
      have hall := ((hus.shift j).append hmiddle).append (hvs.shift i)
      have hsame : spell ((us ++ ws) ++ vs) = spell (us ++ .key name :: vs) := by simp [hspell]
      have hless : (spell ((us ++ ws) ++ vs)).length - ((us ++ ws) ++ vs).length < n := by
        have hbound := length_le_spell ((us ++ ws) ++ vs)
        rw [hsame] at hbound ⊢
        simp only [List.length_append, List.length_cons] at hbound hn ⊢
        omega
      obtain ⟨k', qs, e', hqs, hspell'⟩ := ih _ hless hall rfl
      exact ⟨j + k', qs, e', by rwa [← Nat.add_assoc], hspell'.trans hsame⟩

/-- A name without a colon before a space that does not start with the end of an object type is
clear. -/
theorem clearAt_of_plain (hP : P.Names) (hcolon : ¬ [':', ' '] <:+: name.toList)
    (hclosing : P = .opened → name.toList.head? ≠ some '\x7d') : ClearAt P name := by
  intro d ps e hreads hspell
  cases hreads with
  | nil => exact absurd hP (by simp [Place.Names])
  | @cons _ Q _ _ _ _ p ps hstep hrest =>
    -- Read as a shorter key, the name would hold a colon and a space.
    have hkey {short : String} (hspell : spell (.key short :: ps) = (Piece.key name).text) :
        Piece.key short :: ps = [.key name] := by
      simp only [spell_cons, Piece.text, List.append_assoc] at hspell
      rcases key_cases hspell with ⟨heq, hnil⟩ | ⟨m, hname, -⟩ | ⟨m, -, hm⟩
      · rw [String.toList_inj.mp heq, eq_nil_of_spell_eq_nil hnil]
      · exact absurd ⟨short.toList, m, by simp [hname]⟩ hcolon
      · simp at hm
    cases hstep with
    | first => exact hkey hspell
    | later => exact hkey hspell
    | empty =>
      -- Read as the end of the object type, the name would start with its brace.
      refine absurd ?_ (hclosing rfl)
      cases hname : name.toList with
      | nil => simp [Piece.text, hname] at hspell
      | cons c m =>
        rw [spell_cons, Piece.text, Piece.text, hname] at hspell
        rw [← (List.cons.inj hspell).1, List.head?_cons]
    | word | opening | closing | separator | brackets => exact absurd hP (by simp [Place.Names])

/-- The pieces that lead from the place of a type to a place where a member is named. -/
def approach : Place → List Piece
  | .next => [.opening, .key "x", .word .any, .separator]
  | _ => [.opening]

/-- A place where a member is named can be approached. -/
theorem reads_approach (hP : P.Names) (hx : N .opened "x") (d : Nat) :
    Reads N .type d (approach P) P (d + 1) := by
  rcases hP with rfl | rfl
  · exact .single (.opening d)
  · exact .cons (.opening d) (.cons (.first hx _) (.cons (.word .any _) (.single (.separator d))))

/-- There is a way into any number of object types. -/
theorem exists_reads_inside (hx : N .opened "x") (d : Nat) : ∃ ps, Reads N .type 0 ps .type d := by
  induction d with
  | zero => exact ⟨[], .nil _ _⟩
  | succ d ih =>
    obtain ⟨ps, hps⟩ := ih
    exact ⟨ps ++ [.opening, .key "x"],
      hps.append (.cons (.opening d) (.single (.first hx _)))⟩

/-- There is a way out of any number of object types. -/
theorem reads_outside (d : Nat) :
    Reads N .type d (.word .any :: List.replicate d .closing) .typed 0 := by
  refine .cons (.word .any d) ?_
  induction d with
  | zero => exact .nil _ _
  | succ d ih => exact .cons (.closing d) ih

/-- The name itself or a clear one. -/
def ClearBut (P : Place) (name : String) (P' : Place) (name' : String) : Prop :=
  ClearAt P' name' ∨ P' = P ∧ name' = name

/-- A name that is not clear makes types written alike that are not. What else it can be read as may
leave open more or fewer object types than the name does, so both readings are used twice: one type has
the name first and what else it can be read as inside, the other type the other way round. -/
theorem exists_agrees_not_alike (hP : P.Names) (h : ¬ ClearAt P name) :
    ∃ a b : Apparent, a.Named (ClearBut P name) ∧ b.Named (ClearBut P name)
      ∧ a.agrees b = true ∧ ¬ a.Alike b := by
  have hbut {P' : Place} {name' : String} (h : ClearAt P' name') : ClearBut P name P' name' := .inl h
  have hx : ClearBut P name .opened "x" := hbut (clearAt_of_plain (.inl rfl) (by decide) (by decide))
  obtain ⟨d, ps, e, hps, hspell, -⟩ := exists_of_not_clearAt h
  obtain ⟨k, us, i, hclear, hspell'⟩ := hps.exists_clear
  have hus := hclear.imp fun _ _ => hbut
  have hkey (d : Nat) : Reads (ClearBut P name) P d [.key name] .type d :=
    .single (.key hP (.inr ⟨rfl, rfl⟩) d)
  -- Enough object types are opened first for either reading to close all that it closes.
  obtain ⟨ins, hins⟩ := exists_reads_inside hx (d + k)
  have hstart := hins.append (reads_approach hP hx (d + k))
  have hin := reads_approach hP hx
  obtain ⟨a, ha, hna⟩ := (((hstart.append (hkey _)).append (hin _)).append (hus.shift 2)).append
    (reads_outside _) |>.exists_pieces
  obtain ⟨b, hb, hnb⟩ := (((hstart.append (hus.shift 1)).append (hin _)).append (hkey _)).append
    (reads_outside _) |>.exists_pieces
  refine ⟨a, b, hna, hnb, ?_, ?_⟩
  · rw [agrees_iff, ha, hb]
    simp [hspell, hspell']
  · rw [← pieces_eq_iff, ha, hb]
    intro heq
    simp only [List.append_assoc] at heq
    -- Behind the common start one has the name and the other a reading with clear names only.
    have hrest := List.append_cancel_left (List.append_cancel_left heq)
    cases hclear with
    | nil => exact absurd (hspell'.trans hspell).symm (Piece.text_ne_nil _)
    | cons hstep =>
      obtain ⟨rfl, -⟩ := List.cons.inj hrest
      exact h hstep.named

end Clear

/-! ## What agreement tells -/

/-- Types that are alike agree. -/
theorem Alike.agrees {a b : Apparent} (h : a.Alike b) : a.agrees b = true := by
  rw [agrees_iff, (pieces_eq_iff a b).mpr h]

/-- Types with names that are clear are alike if they agree. -/
theorem Named.alike_of_agrees {N : Place → String → Prop} (hN : ∀ P name, N P name → ClearAt P name)
    {a b : Apparent} (ha : a.Named N) (hb : b.Named N) (h : a.agrees b = true) : a.Alike b := by
  rw [← pieces_eq_iff]
  exact ((ha.reads 0).imp hN).eq_of_spell_eq ((hb.reads 0).imp hN) ((agrees_iff a b).mp h)

/-- Types that are alike agree, and types that agree are alike if their names are clear. No weaker
condition on names would do: a name is clear at a place exactly if agreement is structural equality for
all types whose names are clear apart from this one. A name is clear if it has no colon before a space
and, for a first member, does not start with a closing brace. -/
theorem agrees_iff_alike_of_clear (a b : Apparent) :
    (a.Alike b → a.agrees b = true)
      ∧ (a.Named ClearAt → b.Named ClearAt → (a.agrees b = true ↔ a.Alike b))
      ∧ (∀ P name, P.Names → (ClearAt P name ↔ ∀ a b : Apparent, a.Named (ClearBut P name) →
        b.Named (ClearBut P name) → (a.agrees b = true ↔ a.Alike b)))
      ∧ ∀ P name, P.Names → ¬ [':', ' '] <:+: name.toList →
        (P = .opened → name.toList.head? ≠ some '\x7d') → ClearAt P name := by
  refine ⟨Alike.agrees, fun ha hb => ⟨ha.alike_of_agrees (fun _ _ => id) hb, Alike.agrees⟩,
    fun P name hP => ⟨fun hclear a b ha hb => ?_, fun hall => ?_⟩, fun P name => clearAt_of_plain⟩
  · have hN (P' : Place) (name' : String) (h : ClearBut P name P' name') : ClearAt P' name' := by
      rcases h with h | ⟨rfl, rfl⟩
      · exact h
      · exact hclear
    exact ⟨ha.alike_of_agrees hN hb, Alike.agrees⟩
  · by_contra hnot
    obtain ⟨a, b, ha, hb, hagrees, halike⟩ := exists_agrees_not_alike hP hnot
    exact halike ((hall a b ha hb).mp hagrees)

/-- An array of points. -/
def points : Apparent :=
  .object [⟨"at", .array (.object [⟨"x", .number, none⟩, ⟨"y", .number, none⟩]), none⟩]

/-- The names in an array of points are clear. -/
theorem points_named : points.Named ClearAt :=
  ⟨clearAt_of_plain (.inl rfl) (by decide) (by decide),
    ⟨clearAt_of_plain (.inl rfl) (by decide) (by decide), trivial,
      clearAt_of_plain (.inr rfl) (by decide) (by decide), trivial, trivial⟩, trivial⟩

/-- A name that spells two members. -/
theorem not_clearAt_pair : ¬ ClearAt .opened "a: number; b" := by
  intro h
  have hreads : Reads AnyName .opened 1 [.key "a", .word .number, .separator, .key "b"] .type 1 :=
    .cons (.first trivial 1) (.cons (.word .number 1) (.cons (.separator 0) (.single (.later trivial 1))))
  exact absurd (h 1 _ 1 hreads (by decide)) (by decide)

/-- Names that are clear and a name that is not. -/
theorem agrees_iff_alike_of_clear_points :
    points.Named ClearAt ∧ (points.agrees (.array points) = true ↔ points.Alike (.array points))
      ∧ ¬ ∀ a b : Apparent, a.Named (ClearBut .opened "a: number; b") →
        b.Named (ClearBut .opened "a: number; b") → (a.agrees b = true ↔ a.Alike b) := by
  have h := agrees_iff_alike_of_clear points (.array points)
  exact ⟨points_named, h.2.1 points_named points_named,
    (h.2.2.1 .opened "a: number; b" (.inl rfl)).not.mp not_clearAt_pair⟩

/-- Two members agree with one member whose name spells them. -/
theorem pair_agrees_with_single :
    let pair := Apparent.object [⟨"a", .number, none⟩, ⟨"b", .number, none⟩]
    let single := Apparent.object [⟨"a: number; b", .number, none⟩]
    pair.agrees single = true ∧ ¬ pair.Alike single := by
  refine ⟨by decide +kernel, ?_⟩
  simp [Alike, MembersAlike]

end LayoutInference.Apparent
