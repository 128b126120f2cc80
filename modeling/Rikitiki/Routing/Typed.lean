import Rikitiki.Routing.Arguments
import Rikitiki.Base.Numbers

/-!
# Routes with numbers

The placeholder of an `int` is read with `operator>>`, which passes over white space and a sign, and fails if the
number does not fit. A route with strings and numbers calls its method with the arguments that the URI spells:
`Spells` is the grammar of these URIs.
-/

namespace Rikitiki

open Stringstream (At)

/-! ### Numbers that fit -/

def IsInt (n : Int) : Prop := -2 ^ 31 ≤ n ∧ n < 2 ^ 31

instance (n : Int) : Decidable (IsInt n) := inferInstanceAs (Decidable (_ ∧ _))

def signed (sign digits : Str) : Int :=
  if sign = lit "-" then -(Numeral.value 10 digits : Int) else Numeral.value 10 digits

def clamp (n : Int) : Int := max (-2 ^ 63) (min (2 ^ 63 - 1) n)

theorem clamp_of_isInt {n : Int} (h : IsInt n) : clamp n = n := by
  obtain ⟨hlow, hhigh⟩ := h
  rw [clamp]
  omega

theorem isInt_clamp {n : Int} : IsInt (clamp n) ↔ IsInt n := by
  simp only [IsInt, clamp]
  omega

theorem strtol_fst (s : Str) :
    (strtol 10 s).1 = if (unsigned s).takeWhile (Numeral.isDigit 10) = [] then 0
      else clamp (if (s.dropWhile isSpace).head? = some 45 then
          -(Numeral.value 10 ((unsigned s).takeWhile (Numeral.isDigit 10)) : Int)
        else Numeral.value 10 ((unsigned s).takeWhile (Numeral.isDigit 10))) := by
  simp only [strtol, show ¬ (10 : Nat) = 16 by decide, false_and, if_false]
  change (if (unsigned s).takeWhile (Numeral.isDigit 10) = [] then _ else _ : Int × Str).1 = _
  split
  · rfl
  · rfl

/-- **`strtol` on a number** with something behind it that does not go on with a digit. -/
theorem strtol_number {blanks sign digits rest : Str} (hblanks : ∀ b ∈ blanks, isSpace b = true)
    (hsign : sign ∈ [[], lit "+", lit "-"]) (hne : digits ≠ [])
    (hdigits : ∀ b ∈ digits, Numeral.isDigit 10 b = true)
    (hrest : ∀ b ∈ rest.head?, Numeral.isDigit 10 b = false) :
    strtol 10 (blanks ++ (sign ++ digits) ++ rest) = (clamp (signed sign digits), rest) := by
  obtain ⟨d, digits, rfl⟩ := List.exists_cons_of_ne_nil hne
  have hd := hdigits d (by simp)
  have hnotSpace := (isDigit_byte hd).1
  have hunsigned : unsigned (blanks ++ (sign ++ d :: digits) ++ rest) = d :: digits ++ rest := by
    rw [List.append_assoc, List.append_assoc]
    exact unsigned_append hblanks hsign hd
  have htake : (d :: digits ++ rest).takeWhile (Numeral.isDigit 10) = d :: digits := by
    rw [List.takeWhile_append_of_head _ hrest]
    exact List.takeWhile_eq_self_iff.mpr hdigits
  have hminus : ((blanks ++ (sign ++ d :: digits) ++ rest).dropWhile isSpace).head? = some 45 ↔ sign = lit "-" := by
    rw [List.append_assoc, List.dropWhile_append_of_forall _ hblanks]
    rcases (by simpa [lit] using hsign : sign = [] ∨ sign = [43] ∨ sign = [45]) with rfl | rfl | rfl
    · simp [hnotSpace, (isDigit_byte hd).2.1, lit]
    · simp [isSpace, space, lit]
    · simp [isSpace, space, lit]
  refine Prod.ext ?_ (EndsNumber.strtol_unread (.inl ⟨⟨blanks, sign, _, rfl, hblanks, hsign, hne, hdigits⟩, hrest⟩))
  rw [strtol_fst, hunsigned, htake, if_neg hne]
  simp only [hminus, signed]

/-- `stream >> n` for an `int`: the number it consumes, unless there is none or it does not fit. -/
def consumeInt (u : Str) : Option Str :=
  let (n, unread) := strtol 10 u
  if unread = u ∨ ¬ IsInt n then none else some (u.take (u.length - unread.length))

/-- What a number in front of a text is worth. -/
structure SpellsInt (text rest : Str) (n : Int) : Prop where
  number : ∃ blanks sign digits, text = blanks ++ (sign ++ digits) ∧ (∀ b ∈ blanks, isSpace b = true) ∧
    sign ∈ [[], lit "+", lit "-"] ∧ digits ≠ [] ∧ (∀ b ∈ digits, Numeral.isDigit 10 b = true) ∧
    signed sign digits = n
  fits : IsInt n
  ends : ∀ b ∈ rest.head?, Numeral.isDigit 10 b = false

theorem SpellsInt.strtol {text rest : Str} {n : Int} (h : SpellsInt text rest n) :
    Rikitiki.strtol 10 (text ++ rest) = (n, rest) := by
  obtain ⟨blanks, sign, digits, rfl, hblanks, hsign, hne, hdigits, rfl⟩ := h.number
  rw [strtol_number hblanks hsign hne hdigits h.ends, clamp_of_isInt h.fits]

theorem SpellsInt.strtol_text {text rest : Str} {n : Int} (h : SpellsInt text rest n) :
    (Rikitiki.strtol 10 text).1 = n := by
  have halone : SpellsInt text [] n := ⟨h.number, h.fits, by simp⟩
  have hstrtol := halone.strtol
  rw [List.append_nil] at hstrtol
  rw [hstrtol]

theorem SpellsInt.ne_nil {text rest : Str} {n : Int} (h : SpellsInt text rest n) : text ≠ [] := by
  obtain ⟨blanks, sign, digits, rfl, -, -, hne, -⟩ := h.number
  simp [hne]

/-- **What is consumed** is a number that fits, as far as it goes. -/
theorem consumeInt_eq_some {u text : Str} :
    consumeInt u = some text ↔ ∃ rest n, u = text ++ rest ∧ SpellsInt text rest n := by
  constructor
  · intro h
    obtain ⟨number, rest, rfl, hends⟩ := exists_endsNumber u
    have hunread := hends.strtol_unread
    rcases hends with ⟨⟨blanks, sign, digits, rfl, hblanks, hsign, hne, hdigits⟩, hhead⟩ | ⟨rfl, -⟩
    · have hstrtol := strtol_number hblanks hsign hne hdigits hhead
      simp only [consumeInt, hstrtol] at h
      split at h
      · cases h
      · rename_i hfits
        rw [not_or, not_not, isInt_clamp] at hfits
        have htake : (blanks ++ (sign ++ digits) ++ rest).take
            ((blanks ++ (sign ++ digits) ++ rest).length - rest.length) = blanks ++ (sign ++ digits) := by
          rw [List.length_append, Nat.add_sub_cancel]
          exact List.take_left
        rw [htake] at h
        obtain rfl := Option.some.inj h
        exact ⟨rest, _, rfl, ⟨blanks, sign, digits, rfl, hblanks, hsign, hne, hdigits, rfl⟩, hfits.2, hhead⟩
    · rw [List.nil_append] at h hunread
      simp [consumeInt, hunread] at h
  · intro h
    obtain ⟨rest, n, rfl, hspells⟩ := h
    have hne : rest ≠ text ++ rest := by
      intro heq
      have hlength := congrArg List.length heq
      rw [List.length_append] at hlength
      exact hspells.ne_nil (List.length_eq_zero_iff.mp (by omega))
    have hfits := hspells.fits
    simp only [consumeInt, hspells.strtol]
    rw [if_neg (by simp [hne, hfits]), List.length_append, Nat.add_sub_cancel, List.take_left]

theorem consumeInt_nil : consumeInt [] = none := by decide

/-- `operator>>` for an `int`. It looks for more digits until there are none, or the stream is at its end. -/
def intExtractor : Extractor where
  consume := consumeInt
  looksOn u := consumeInt u = some u
  front u v h := by
    obtain ⟨rest, n, rfl, -⟩ := consumeInt_eq_some.mp h
    exact List.prefix_append v rest
  fails_at_end := consumeInt_nil
  looksOn_end u v h hlooks := Option.some.inj (h.symm.trans (of_decide_eq_true hlooks))

/-! ### Routes of strings and numbers -/

/-- An argument of the method of a route. -/
inductive Argument where
  | string (value : Str)
  | int (value : Int)
  deriving DecidableEq, Repr

inductive ArgumentType where
  | string
  | int
  deriving DecidableEq, Repr

namespace ArgumentType

def placeholder : ArgumentType → Placeholder
  | .string => .string
  | .int => .other intExtractor

def read : ArgumentType → Str → Argument
  | .string, text => .string text
  | .int, text => .int (strtol 10 text).1

/-- What an argument stands for in front of a text. -/
inductive Spells : ArgumentType → Str → Str → Argument → Prop
  | string {text rest : Str} (hvalue : Value text) (hends : ∀ b ∈ rest.head?, accepted b = false) :
      Spells .string text rest (.string text)
  | int {text rest : Str} {n : Int} (h : SpellsInt text rest n) : Spells .int text rest (.int n)

theorem Spells.read {type : ArgumentType} {text rest : Str} {argument : Argument}
    (h : type.Spells text rest argument) : type.read text = argument := by
  cases h with
  | string hvalue hends => rfl
  | int hint => rw [ArgumentType.read, hint.strtol_text]

theorem consume_string {u text : Str} :
    Placeholder.string.consume u = some text ↔
      ∃ rest, u = text ++ rest ∧ Value text ∧ ∀ b ∈ rest.head?, accepted b = false := by
  constructor
  · intro h
    simp only [Placeholder.consume] at h
    split at h
    · cases h
    · rename_i hne
      obtain rfl := Option.some.inj h
      refine ⟨u.dropWhile accepted, (List.takeWhile_append_dropWhile).symm,
        ⟨hne, fun b => List.mem_takeWhile_imp⟩, fun b hb => ?_⟩
      have hnot := List.head?_dropWhile_not accepted u
      rw [Option.mem_def.mp hb] at hnot
      simpa using hnot
  · intro h
    obtain ⟨rest, rfl, hvalue, hends⟩ := h
    have htake : (text ++ rest).takeWhile accepted = text := by
      rw [List.takeWhile_append_of_head _ hends]
      exact List.takeWhile_eq_self_iff.mpr hvalue.accepted
    simp only [Placeholder.consume, htake, if_neg hvalue.nonempty]

/-- **An extraction succeeds** on what spells an argument. -/
theorem consume_eq_some {type : ArgumentType} {u text : Str} :
    type.placeholder.consume u = some text ↔
      ∃ rest argument, u = text ++ rest ∧ type.Spells text rest argument := by
  cases type with
  | string =>
      rw [placeholder, consume_string]
      constructor
      · intro h
        obtain ⟨rest, hu, hvalue, hends⟩ := h
        exact ⟨rest, _, hu, .string hvalue hends⟩
      · intro h
        obtain ⟨rest, argument, hu, hspells⟩ := h
        cases hspells with
        | string hvalue hends => exact ⟨rest, hu, hvalue, hends⟩
  | int =>
      rw [placeholder, Placeholder.consume]
      refine consumeInt_eq_some.trans ?_
      constructor
      · intro h
        obtain ⟨rest, n, hu, hint⟩ := h
        exact ⟨rest, _, hu, .int hint⟩
      · intro h
        obtain ⟨rest, argument, hu, hspells⟩ := h
        cases hspells with
        | int hint => exact ⟨rest, _, hu, hint⟩

end ArgumentType

structure TypedPiece where
  literal : Str
  name : Str
  type : ArgumentType
  literal_free : ∀ b ∈ literal, b ≠ openBrace ∧ b ≠ nul
  name_free : ∀ b ∈ name, b ≠ closeBrace ∧ b ≠ nul

def TypedPiece.piece (piece : TypedPiece) : RoutePiece :=
  ⟨piece.literal, piece.name, piece.type.placeholder, piece.literal_free, piece.name_free⟩

/-- A URI spells the arguments of a route. -/
inductive Spells : List TypedPiece → Str → Str → List Argument → Prop
  | last {last leftover : Str} (hend : TakenForEnd leftover) : Spells [] last (last ++ leftover) []
  | piece {piece : TypedPiece} {pieces : List TypedPiece} {last text rest : Str} {argument : Argument}
      {arguments : List Argument} (htext : piece.type.Spells text rest argument)
      (hrest : Spells pieces last rest arguments) :
      Spells (piece :: pieces) last (piece.literal ++ (text ++ rest)) (argument :: arguments)

theorem spells_nil {last uri : Str} {arguments : List Argument} :
    Spells [] last uri arguments ↔ arguments = [] ∧ ∃ leftover, uri = last ++ leftover ∧ TakenForEnd leftover := by
  constructor
  · intro h
    cases h with
    | last hend => exact ⟨rfl, _, rfl, hend⟩
  · intro h
    obtain ⟨rfl, leftover, rfl, hend⟩ := h
    exact .last hend

def readAll (pieces : List TypedPiece) (texts : List Str) : List Argument :=
  List.zipWith (fun piece text => piece.type.read text) pieces texts

/-- **The scanner finds the arguments** that a URI spells, and no others. -/
theorem scan_typed_iff (pieces : List TypedPiece) (last : Str) {u : Str} {s : Stringstream} (hs : At s u)
    {arguments : List Argument} :
    (scan ((pieces.map TypedPiece.piece).map RoutePiece.type) s
          (((pieces.map TypedPiece.piece).map RoutePiece.text).flatten ++ last)).1 = pieces.length + 1 ∧
        readAll pieces (scan ((pieces.map TypedPiece.piece).map RoutePiece.type) s
          (((pieces.map TypedPiece.piece).map RoutePiece.text).flatten ++ last)).2 = arguments ↔
      (∀ piece ∈ pieces, piece.piece.Ascii) ∧ Spells pieces last u arguments := by
  induction pieces generalizing u s arguments with
  | nil =>
      simp only [List.map_nil, List.flatten_nil, List.nil_append, scan, List.length_nil, Nat.zero_add,
        (scanTail_iff hs).2, readAll, List.zipWith_nil_left, spells_nil, List.not_mem_nil, false_imp_iff,
        implies_true, true_and, eq_comm (b := arguments), and_comm]
  | cons piece pieces ih =>
      simp only [List.map_cons, List.flatten_cons, List.append_assoc, List.length_cons]
      constructor
      · intro h
        obtain ⟨hmatched, harguments⟩ := h
        obtain ⟨hascii, text, rest, rfl, hconsume⟩ :=
          front_of_scan_piece hs (by rw [hmatched]; exact Nat.succ_ne_zero _)
        obtain ⟨s', hpiece, hs'⟩ := scan_piece_of_front hascii hconsume hs
          ((pieces.map TypedPiece.piece).map RoutePiece.type)
          (((pieces.map TypedPiece.piece).map RoutePiece.text).flatten ++ last)
        rw [hpiece] at hmatched harguments
        obtain ⟨rest', argument, hrest, hspells⟩ := ArgumentType.consume_eq_some.mp hconsume
        obtain rfl := List.append_cancel_left hrest
        obtain ⟨hpieces, hlater⟩ := (ih hs').mp ⟨by omega, rfl⟩
        refine ⟨List.forall_mem_cons.mpr ⟨hascii, hpieces⟩, ?_⟩
        rw [← harguments, readAll, List.zipWith_cons_cons, hspells.read]
        exact .piece hspells hlater
      · intro h
        obtain ⟨hall, hspells⟩ := h
        obtain ⟨hascii, hpieces⟩ := List.forall_mem_cons.mp hall
        cases hspells with
        | piece htext hlater =>
            obtain ⟨s', hpiece, hs'⟩ := scan_piece_of_front hascii
              (ArgumentType.consume_eq_some.mpr ⟨_, _, rfl, htext⟩) hs
              ((pieces.map TypedPiece.piece).map RoutePiece.type)
              (((pieces.map TypedPiece.piece).map RoutePiece.text).flatten ++ last)
            obtain ⟨hmatched, harguments⟩ := (ih hs').mpr ⟨hpieces, hlater⟩
            rw [hpiece]
            refine ⟨by rw [hmatched, Nat.add_comm], ?_⟩
            rw [readAll, List.zipWith_cons_cons, htext.read]
            exact congrArg _ harguments

/-- A route of strings and numbers. One without arguments is compared as a whole. -/
structure TypedRoute where
  pieces : List TypedPiece
  last : Str
  last_free : nul ∉ last
  nonempty : pieces ≠ []

namespace TypedRoute

def route (route : TypedRoute) : RouteString := ⟨route.pieces.map TypedPiece.piece, route.last, route.last_free⟩

/-- `Route_<P, T...>::Handle`: what the method is called with, if it is. -/
def handle (route : TypedRoute) (method : RequestMethod) (request : Request) : Option (List Argument) :=
  if method ≠ .any ∧ method ≠ request.requestMethod then none
  else
    let (matched, texts) := modernSscanf route.route.types request.uri route.route.text
    if matched = route.pieces.length + 1 then some (readAll route.pieces texts) else none

theorem handle_eq_some_iff_scan (route : TypedRoute) {method : RequestMethod} {request : Request}
    (hmethod : method = .any ∨ method = request.requestMethod) {arguments : List Argument} :
    route.handle method request = some arguments ↔
      (scan route.route.types { rest := request.uri } route.route.text).1 = route.pieces.length + 1 ∧
        readAll route.pieces (scan route.route.types { rest := request.uri } route.route.text).2 = arguments := by
  have hagree : ¬ (method ≠ .any ∧ method ≠ request.requestMethod) := by
    rw [not_and_or, not_not, not_not]
    exact hmethod
  rw [handle, if_neg hagree, modernSscanf, cstr_eq_self request.uri_free,
    cstr_eq_self route.route.nul_not_mem_text, Option.ite_none_right_eq_some, Option.some.injEq]

/-- **A route calls its method** with the arguments that the URI spells, and for no other URI: a number stands for
its value, with its sign and behind white space, and one that does not fit into an `int` is not taken. -/
theorem handle_eq_some (route : TypedRoute) {method : RequestMethod} {request : Request}
    (hmethod : method = .any ∨ method = request.requestMethod) {arguments : List Argument} :
    route.handle method request = some arguments ↔
      (∀ piece ∈ route.pieces, piece.piece.Ascii) ∧ Spells route.pieces route.last request.uri arguments :=
  (route.handle_eq_some_iff_scan hmethod).trans
    (scan_typed_iff route.pieces route.last (Stringstream.at_new request.uri))

end TypedRoute

/-! ### Printed arguments -/

/-- `stream << n` for an `int`. -/
def printInt (n : Int) : Str := if n < 0 then lit "-" ++ decimal n.natAbs else decimal n.natAbs

theorem spellsInt_printInt {n : Int} (hn : IsInt n) {rest : Str}
    (hrest : ∀ b ∈ rest.head?, Numeral.isDigit 10 b = false) : SpellsInt (printInt n) rest n := by
  have hdigits : ∀ b ∈ decimal n.natAbs, Numeral.isDigit 10 b = true :=
    fun b hb => Numeral.isDigit_of_mem_numeral (by decide) (by decide) hb
  have hne : decimal n.natAbs ≠ [] := Numeral.numeral_ne_nil 10 _
  have hvalue : Numeral.value 10 (decimal n.natAbs) = n.natAbs := Numeral.value_numeral (by decide) (by decide) _
  refine ⟨?_, hn, hrest⟩
  by_cases hneg : n < 0
  · refine ⟨[], lit "-", decimal n.natAbs, by rw [printInt, if_pos hneg, List.nil_append], by simp, by simp, hne,
      hdigits, ?_⟩
    rw [signed, if_pos rfl, hvalue]
    omega
  · refine ⟨[], [], decimal n.natAbs, by rw [printInt, if_neg hneg, List.nil_append, List.nil_append], by simp,
      by simp, hne, hdigits, ?_⟩
    rw [signed, if_neg (by decide), hvalue]
    omega

namespace Argument

def print : Argument → Str
  | .string value => value
  | .int n => printInt n

/-- An argument of a type, as a URI can spell it. -/
inductive Fits : ArgumentType → Argument → Prop
  | string {value : Str} (h : Value value) : Fits .string (.string value)
  | int {n : Int} (h : IsInt n) : Fits .int (.int n)

end Argument

/-- A text ends the argument in front of it. -/
def ArgumentType.Ends : ArgumentType → Str → Prop
  | .string, rest => ∀ b ∈ rest.head?, accepted b = false
  | .int, rest => ∀ b ∈ rest.head?, Numeral.isDigit 10 b = false

theorem Argument.Fits.spells {type : ArgumentType} {argument : Argument} (h : Argument.Fits type argument)
    {rest : Str} (hrest : type.Ends rest) : type.Spells argument.print rest argument := by
  cases h with
  | string hvalue => exact .string hvalue hrest
  | int hn => exact .int (spellsInt_printInt hn hrest)

theorem ArgumentType.Ends.append {type : ArgumentType} {literal : Str} (h : type.Ends literal) (hne : literal ≠ [])
    (rest : Str) : type.Ends (literal ++ rest) := by
  obtain ⟨b, literal, rfl⟩ := List.exists_cons_of_ne_nil hne
  cases type with
  | string => exact h
  | int => exact h

/-- Between two placeholders, and behind the last one, is something that ends the first. -/
def Apart : List TypedPiece → Str → Prop
  | [], _ => True
  | [piece], last => piece.type.Ends last
  | piece :: next :: pieces, last =>
    (next.literal ≠ [] ∧ piece.type.Ends next.literal) ∧ Apart (next :: pieces) last

def substituteAll (pieces : List TypedPiece) (last : Str) (arguments : List Argument) : Str :=
  (List.zipWith (fun piece argument => piece.literal ++ argument.print) pieces arguments).flatten ++ last

theorem spells_substituteAll {pieces : List TypedPiece} {last : Str} (hapart : Apart pieces last)
    {arguments : List Argument}
    (hfits : List.Forall₂ (fun piece argument => Argument.Fits piece.type argument) pieces arguments) :
    Spells pieces last (substituteAll pieces last arguments) arguments := by
  induction hfits with
  | nil =>
      have hlast : Spells [] last (last ++ []) [] := .last rfl
      rw [List.append_nil] at hlast
      exact hlast
  | @cons piece argument pieces arguments hfirst hlater ih =>
      have hends : piece.type.Ends (substituteAll pieces last arguments) ∧ Apart pieces last := by
        cases hlater with
        | nil => exact ⟨hapart, trivial⟩
        | cons hnext hmore =>
            refine ⟨?_, hapart.2⟩
            simp only [substituteAll, List.zipWith_cons_cons, List.flatten_cons, List.append_assoc]
            exact hapart.1.2.append hapart.1.1 _
      have hspells : Spells (piece :: pieces) last
          (piece.literal ++ (argument.print ++ substituteAll pieces last arguments)) (argument :: arguments) :=
        .piece (hfirst.spells hends.1) (ih hends.2)
      simpa only [substituteAll, List.zipWith_cons_cons, List.flatten_cons, List.append_assoc] using hspells

namespace TypedRoute

/-- **Arguments come back** from the URI they are printed into. -/
theorem handle_substituteAll (route : TypedRoute) (hascii : ∀ piece ∈ route.pieces, piece.piece.Ascii)
    (hapart : Apart route.pieces route.last) {arguments : List Argument}
    (hfits : List.Forall₂ (fun piece argument => Argument.Fits piece.type argument) route.pieces arguments)
    {method : RequestMethod} {request : Request} (hmethod : method = .any ∨ method = request.requestMethod)
    (huri : request.uri = substituteAll route.pieces route.last arguments) :
    route.handle method request = some arguments := by
  refine (route.handle_eq_some_iff_scan hmethod).mpr ?_
  refine (scan_typed_iff route.pieces route.last (Stringstream.at_new request.uri)).mpr ⟨hascii, ?_⟩
  rw [huri]
  exact spells_substituteAll hapart hfits

theorem queryStringTest_free :
    (∀ b ∈ lit "/QueryStringTest/", b ≠ openBrace ∧ b ≠ nul) ∧ ∀ b ∈ lit "num", b ≠ closeBrace ∧ b ≠ nul := by
  simp [lit, openBrace, closeBrace, nul]

def num : TypedPiece := ⟨lit "/QueryStringTest/", lit "num", .int, queryStringTest_free.1, queryStringTest_free.2⟩

def queryStringTest : TypedRoute where
  pieces := [num]
  last := []
  last_free := List.not_mem_nil
  nonempty := List.cons_ne_nil _ _

def getNumber : Request := ⟨.get, lit "/QueryStringTest/ -42", by simp [lit, nul]⟩

theorem handle_eq_some_getNumber : queryStringTest.handle .any getNumber = some [.int (-42)] := by
  refine (queryStringTest.handle_eq_some (.inl rfl)).mpr ⟨by decide, ?_⟩
  have hspells : SpellsInt (lit " -42") [] (-42) :=
    ⟨⟨lit " ", lit "-", lit "42", rfl, by decide, by decide, by decide, by decide, by decide⟩, by decide, by simp⟩
  have hnum : num.type.Spells (lit " -42") [] (.int (-42)) := .int hspells
  have hlast : Spells [] [] ([] ++ []) [] := .last rfl
  exact .piece hnum hlast

theorem handle_substituteAll_getNumber :
    queryStringTest.handle .get ⟨.get, lit "/QueryStringTest/-2147483648", by simp [lit, nul]⟩
      = some [.int (-2147483648)] :=
  queryStringTest.handle_substituteAll (by decide) (by simp [queryStringTest, Apart, num, ArgumentType.Ends])
    (.cons (.int (by decide)) .nil) (.inr rfl) (by decide +kernel)

end TypedRoute

end Rikitiki
