import Rikitiki.Base.StringMap
import Rikitiki.Library.Run
import Rikitiki.Library.Templates

/-!
# The variables of a configuration file

`performSubstitutions` hands every text of a configuration to `expand_variables`, which is to replace what stands
between `$(` and `)` by the text of the variable. The text in front of a variable is not put behind what
`exp_value` holds: it goes in at the position that has the value of its last character for a number. The first
variable finds no last character at all.
-/

namespace Rikitiki.Configuration

open Templates

abbrev dollar : Byte := 36
abbrev openParen : Byte := 40
abbrev closeParen : Byte := 41

theorem dollar_ne_openParen : dollar ≠ openParen := by decide

def marks : Marks Byte := ⟨dollar, openParen, closeParen, dollar_ne_openParen⟩

/-- How an expansion ends without a text. -/
inductive Failure where
  | outOfRange
  | undefined
  | running

/-- A `size_t` that goes through an `int`. -/
def throughInt (n : Nat) : Nat :=
  if n % 2 ^ 32 < 2 ^ 31 then n % 2 ^ 32 else n % 2 ^ 32 + (2 ^ 64 - 2 ^ 32)

/-- A `char`, which is signed, as a `size_t`. -/
def charToSize (b : Byte) : Nat := if b.toNat < 128 then b.toNat else b.toNat + (2 ^ 64 - 256)

/-- `find_close` -/
def findClose (path : Str) (start : Nat) : Option Nat :=
  ((path.drop start).findIdx? fun b => b = closeParen).map (start + ·)

/-- The loop of `find_open_decl`, with its variable `dollar`. -/
def openDecl : Bool → Str → Option Nat
  | _, [] => none
  | seen, b :: rest =>
    if b = dollar then (openDecl true rest).map (· + 1)
    else if b = openParen ∧ seen then some 0
    else (openDecl false rest).map (· + 1)

/-- `find_open_decl` -/
def findOpenDecl (path : Str) (start : Nat) : Option Nat := (openDecl false (path.drop start)).map (start + ·)

/-- `close_decl` and `key(&value[open_decl+1], &value[close_decl])`, for which the two must be in order. -/
def declared (value : Str) (opened : Nat) : Except Failure (Str × Nat) :=
  match findClose value (throughInt opened) with
  | none => .error .undefined
  | some closed =>
    if closed < opened + 1 then .error .undefined
    else .ok ((value.drop (opened + 1)).take (closed - (opened + 1)), closed)

/-- `exp_value.insert(exp_value.back(), text)`. What `back` of an empty string reads is `emptyBack`, if there is
anything to be read. -/
def insertAtBack (emptyBack : Option Byte) (exp text : Str) : Except Failure Str :=
  match exp.getLast?.or emptyBack with
  | none => .error .undefined
  | some back =>
    if exp.length < charToSize back then .error .outOfRange
    else .ok (exp.take (charToSize back) ++ text ++ exp.drop (charToSize back))

/-- The loop of `expand_variables`. -/
def expandLoop (emptyBack : Option Byte) (value : Str) : Nat → StringMap → Nat → Str → Except Failure Str
  | 0, _, _, _ => .error .running
  | fuel + 1, vars, last, exp =>
    match findOpenDecl value last with
    | none => if value.length < last then .error .undefined else .ok (exp ++ cstr (value.drop last))
    | some opened => do
      let (key, closed) ← declared value opened
      let exp ← insertAtBack emptyBack exp ((value.drop last).take (opened - last - 1))
      let (text, vars) := vars.lookup key
      expandLoop emptyBack value fuel vars (throughInt (closed + 1)) (exp ++ text)

/-- `expand_variables` -/
def expandVariables (emptyBack : Option Byte) (vars : StringMap) (value exp : Str) : Except Failure Str :=
  expandLoop emptyBack value (value.length + 1) vars 0 exp

/-- The call comes back without an access out of range, and with the variables replaced if all of them are
closed. -/
def Expands (vars : StringMap) (value : Str) : Prop :=
  ∃ exp, expandVariables none vars value [] = .ok exp ∧
    (marks.Closed value → exp = marks.expand vars.find value)

/-! ### The search for a variable -/

theorem openDecl_of_free {s : Str} (h : marks.Free s) {seen : Bool} (hseen : seen = true → s.head? ≠ some openParen) :
    openDecl seen s = none := by
  induction s generalizing seen with
  | nil => rfl
  | cons b s ih =>
      obtain ⟨hstart, htail⟩ := Marks.free_cons.mp h
      rw [openDecl]
      split
      · rename_i hb
        rw [ih htail, Option.map_none]
        intro _ hhead
        obtain ⟨rest, rfl⟩ := List.head?_eq_some_iff.mp hhead
        exact hstart (hb ▸ List.prefix_append [dollar, openParen] rest)
      · split
        · rename_i hb
          exact absurd (congrArg some hb.1) (hseen hb.2)
        · rw [ih htail (by simp), Option.map_none]

theorem openDecl_append {text : Str} (h : marks.Free text) {seen : Bool}
    (hseen : seen = true → text.head? ≠ some openParen) (rest : Str) :
    openDecl seen (text ++ dollar :: openParen :: rest) = some (text.length + 1) := by
  induction text generalizing seen with
  | nil => simp [openDecl, dollar_ne_openParen.symm]
  | cons b text ih =>
      obtain ⟨hstart, htail⟩ := Marks.free_cons.mp h
      rw [List.cons_append, openDecl]
      split
      · rename_i hb
        rw [ih htail, Option.map_some, List.length_cons]
        intro _ hhead
        obtain ⟨rest, rfl⟩ := List.head?_eq_some_iff.mp hhead
        exact hstart (hb ▸ List.prefix_append [dollar, openParen] rest)
      · split
        · rename_i hb
          exact absurd (congrArg some hb.1) (hseen hb.2)
        · rw [ih htail (by simp), Option.map_some, List.length_cons]

theorem findOpenDecl_of_free (front : Str) {rest : Str} (h : marks.Free rest) :
    findOpenDecl (front ++ rest) front.length = none := by
  rw [findOpenDecl, List.drop_left, openDecl_of_free h (by simp), Option.map_none]

theorem findOpenDecl_append (front : Str) {text : Str} (h : marks.Free text) (rest : Str) :
    findOpenDecl (front ++ (text ++ marks.first :: marks.second :: rest)) front.length
      = some (front.length + (text.length + 1)) := by
  have hopened : openDecl false (text ++ marks.first :: marks.second :: rest) = some (text.length + 1) :=
    openDecl_append h (by simp) rest
  rw [findOpenDecl, List.drop_left, hopened, Option.map_some]

theorem findClose_append (front : Str) {name : Str} (h : closeParen ∉ name) (rest : Str) :
    findClose (front ++ (name ++ closeParen :: rest)) front.length = some (front.length + name.length) := by
  have hclose : (name ++ closeParen :: rest).findIdx? (fun b => b = closeParen) = some name.length := by
    rw [List.findIdx?_append, List.findIdx?_eq_none_iff.mpr]
    · simp [List.findIdx?_cons]
    · intro b hb
      exact decide_eq_false fun heq => h (heq ▸ hb)
  rw [findClose, List.drop_left, hclose, Option.map_some]

/-! ### One turn of the loop -/

theorem throughInt_of_lt {n : Nat} (h : n < 2 ^ 31) : throughInt n = n := by
  rw [throughInt, Nat.mod_eq_of_lt (by omega), if_pos h]

theorem declared_append (front : Str) {name : Str} (h : closeParen ∉ name) (rest : Str)
    (hlength : front.length < 2 ^ 31) :
    declared (front ++ openParen :: (name ++ closeParen :: rest)) front.length
      = .ok (name, front.length + (name.length + 1)) := by
  have hopen : closeParen ∉ openParen :: name := by
    rw [List.mem_cons, not_or]
    exact ⟨by decide, h⟩
  have hclose := findClose_append front hopen rest
  rw [List.cons_append, List.length_cons] at hclose
  have hname : (front ++ openParen :: (name ++ closeParen :: rest)).drop (front.length + 1)
      = name ++ closeParen :: rest := by
    rw [← List.drop_drop, List.drop_left]
    rfl
  have hsize : front.length + (name.length + 1) - (front.length + 1) = name.length := by omega
  rw [declared, throughInt_of_lt hlength, hclose]
  simp only [hname, hsize]
  rw [if_neg (by omega), List.take_left]

theorem expandLoop_of_findOpenDecl (emptyBack : Option Byte) {value : Str} {last opened : Nat}
    (hopened : findOpenDecl value last = some opened) (fuel : Nat) (vars : StringMap) (exp : Str) :
    expandLoop emptyBack value (fuel + 1) vars last exp
      = (declared value opened).bind fun decl =>
          (insertAtBack emptyBack exp ((value.drop last).take (opened - last - 1))).bind fun exp =>
            expandLoop emptyBack value fuel (vars.lookup decl.1).2 (throughInt (decl.2 + 1))
              (exp ++ vars.find decl.1) := by
  rw [expandLoop]
  simp only [hopened]
  simp only [← StringMap.lookup_fst]
  rfl

/-! ### The loop comes to an end -/

theorem openDecl_lt {seen : Bool} {s : Str} {i : Nat} (h : openDecl seen s = some i) : i < s.length := by
  induction s generalizing seen i with
  | nil => cases h
  | cons b s ih =>
      rw [openDecl] at h
      split at h
      · obtain ⟨j, hj, rfl⟩ := Option.map_eq_some_iff.mp h
        exact Nat.succ_lt_succ (ih hj)
      · split at h
        · rw [← Option.some.inj h]
          exact Nat.succ_pos _
        · obtain ⟨j, hj, rfl⟩ := Option.map_eq_some_iff.mp h
          exact Nat.succ_lt_succ (ih hj)

theorem findOpenDecl_bounds {value : Str} {last opened : Nat} (h : findOpenDecl value last = some opened) :
    last ≤ opened ∧ opened < value.length := by
  obtain ⟨i, hi, rfl⟩ := Option.map_eq_some_iff.mp h
  have hlt := openDecl_lt hi
  rw [List.length_drop] at hlt
  omega

theorem declared_bounds {value key : Str} {opened closed : Nat} (h : declared value opened = .ok (key, closed)) :
    opened < closed ∧ closed < value.length := by
  rw [declared] at h
  split at h
  · cases h
  · rename_i found hfound
    split at h
    · cases h
    · rename_i horder
      obtain ⟨-, rfl⟩ := Prod.mk.inj (Except.ok.inj h)
      obtain ⟨i, hi, rfl⟩ := Option.map_eq_some_iff.mp hfound
      have hlt := (List.findIdx?_eq_some_iff_getElem.mp hi).1
      rw [List.length_drop] at hlt
      omega

theorem declared_ne_running (value : Str) (opened : Nat) : declared value opened ≠ .error .running := by
  rw [declared]
  split
  · simp
  · split
    · simp
    · simp

theorem insertAtBack_ne_running (emptyBack : Option Byte) (exp text : Str) :
    insertAtBack emptyBack exp text ≠ .error .running := by
  rw [insertAtBack]
  split
  · simp
  · split
    · simp
    · simp

/-- A turn leaves less of the value, as long as positions fit an `int`. -/
theorem expandLoop_ne_running (emptyBack : Option Byte) {value : Str} (hlength : value.length < 2 ^ 31)
    {fuel last : Nat} (hlast : last ≤ value.length) (hfuel : value.length < last + fuel) (vars : StringMap)
    (exp : Str) : expandLoop emptyBack value fuel vars last exp ≠ .error .running := by
  induction fuel generalizing last vars exp with
  | zero => exact absurd hlast (Nat.not_le.mpr hfuel)
  | succ fuel ih =>
      cases hopened : findOpenDecl value last with
      | none =>
          rw [expandLoop]
          simp only [hopened]
          split
          · simp
          · simp
      | some opened =>
          rw [expandLoop_of_findOpenDecl emptyBack hopened]
          have hbounds := findOpenDecl_bounds hopened
          cases hdeclared : declared value opened with
          | error failure =>
              intro herror
              exact declared_ne_running value opened (Except.error.inj herror ▸ hdeclared)
          | ok decl =>
              have hclosed := declared_bounds hdeclared
              simp only [Except.bind]
              cases hinsert : insertAtBack emptyBack exp ((value.drop last).take (opened - last - 1)) with
              | error failure =>
                  intro herror
                  exact insertAtBack_ne_running emptyBack exp _ (Except.error.inj herror ▸ hinsert)
              | ok exp =>
                  simp only
                  rw [throughInt_of_lt (by omega)]
                  exact ih (by omega) (by omega) _ _

/-- **The call comes to an end** on every value whose positions fit an `int`. -/
theorem expandVariables_ne_running (emptyBack : Option Byte) (vars : StringMap) {value : Str}
    (hlength : value.length < 2 ^ 31) (exp : Str) : expandVariables emptyBack vars value exp ≠ .error .running :=
  expandLoop_ne_running emptyBack hlength (Nat.zero_le _) (by omega) vars exp

/-! ### Values without variables, and with one -/

theorem expandLoop_of_free (emptyBack : Option Byte) (front : Str) {tail : Str} (h : marks.Free tail) (fuel : Nat)
    (vars : StringMap) (exp : Str) :
    expandLoop emptyBack (front ++ tail) (fuel + 1) vars front.length exp = .ok (exp ++ cstr tail) := by
  rw [expandLoop, findOpenDecl_of_free front h]
  simp

theorem expandVariables_of_free (emptyBack : Option Byte) (vars : StringMap) {value : Str} (h : marks.Free value)
    (exp : Str) : expandVariables emptyBack vars value exp = .ok (exp ++ cstr value) :=
  expandLoop_of_free emptyBack [] h value.length vars exp

/-- **A variable, closed or not,** makes the code read the last character of an empty string. -/
theorem expandVariables_of_not_free (vars : StringMap) {value : Str} (h : ¬ marks.Free value) :
    expandVariables none vars value [] = .error .undefined := by
  obtain ⟨text, rest, rfl, htext⟩ := Marks.exists_first h
  have hopened := findOpenDecl_append [] htext rest
  rw [List.nil_append, List.length_nil] at hopened
  rw [expandVariables, expandLoop_of_findOpenDecl none hopened, declared]
  split
  · rfl
  · split
    · rfl
    · rfl

/-- **The variables are replaced** exactly in the values that have none, and no NUL either. -/
theorem expands_iff (vars : StringMap) (value : Str) :
    Expands vars value ↔ ¬ [dollar, openParen] <:+: value ∧ nul ∉ value := by
  by_cases hfree : marks.Free value
  · have hclosed : marks.Closed value := by
      intro rest hsuffix
      have hmark := (List.prefix_append [marks.first, marks.second] rest).isInfix
      exact absurd (hmark.trans hsuffix.isInfix) hfree
    have hexpand := hfree.expand_eq vars.find
    constructor
    · intro h
      obtain ⟨exp, hreturns, hexp⟩ := h
      rw [expandVariables_of_free none vars hfree, List.nil_append] at hreturns
      have hexp := hexp hclosed
      rw [hexpand, ← Except.ok.inj hreturns] at hexp
      refine ⟨hfree, fun hnul => ?_⟩
      rw [← hexp] at hnul
      simpa using List.mem_takeWhile_imp hnul
    · intro h
      refine ⟨value, ?_, fun _ => hexpand.symm⟩
      rw [expandVariables_of_free none vars hfree, List.nil_append, cstr_eq_self h.2]
  · constructor
    · intro h
      obtain ⟨exp, hreturns, -⟩ := h
      rw [expandVariables_of_not_free vars hfree] at hreturns
      cases hreturns
    · intro h
      exact absurd h.1 hfree

/-- A variable in front of all other text. -/
theorem not_forall_expands : ¬ ∀ (vars : StringMap) (value : Str), Expands vars value := by
  intro h
  obtain ⟨exp, hreturns, -⟩ := h ∅ (lit "$(X)")
  have hopen : ¬ marks.Free (lit "$(X)") := fun hfree => hfree ⟨[], lit "X)", rfl⟩
  rw [expandVariables_of_not_free ∅ hopen] at hreturns
  cases hreturns

/-! ### Several variables -/

/-- What a piece of the value does to `exp_value`. -/
def insertPiece (emptyBack : Option Byte) (subst : Str → Str) (exp : Str) (piece : Piece Byte) :
    Except Failure Str :=
  (insertAtBack emptyBack exp piece.text).bind fun exp => .ok (exp ++ subst piece.name)

theorem expandLoop_piece (emptyBack : Option Byte) (front : Str) {piece : Piece Byte} (h : piece.Valid marks)
    (rest : Str) (hlength : (front ++ piece.source marks).length < 2 ^ 31) (fuel : Nat) (vars : StringMap)
    (exp : Str) :
    expandLoop emptyBack (front ++ (piece.source marks ++ rest)) (fuel + 1) vars front.length exp
      = (insertPiece emptyBack vars.find exp piece).bind
          (expandLoop emptyBack (front ++ (piece.source marks ++ rest)) fuel (vars.lookup piece.name).2
            (front ++ piece.source marks).length) := by
  obtain ⟨text, name⟩ := piece
  obtain ⟨htext, hname⟩ := h
  simp only [Piece.source, List.append_assoc, List.cons_append, List.nil_append] at htext hname hlength ⊢
  have hopened := findOpenDecl_append front htext (name ++ marks.close :: rest)
  have hvalue : front ++ (text ++ marks.first :: marks.second :: (name ++ marks.close :: rest))
      = (front ++ text ++ [dollar]) ++ openParen :: (name ++ closeParen :: rest) := by
    simp [marks]
  have hposition : front.length + (text.length + 1) = (front ++ text ++ [dollar]).length := by
    simp only [List.length_append, List.length_singleton]
    omega
  have hend : (front ++ text ++ [dollar]).length + (name.length + 1) + 1
      = (front ++ (text ++ marks.first :: marks.second :: (name ++ [marks.close]))).length := by
    simp only [List.length_append, List.length_cons, List.length_nil]
    omega
  have hdeclared : declared (front ++ (text ++ marks.first :: marks.second :: (name ++ marks.close :: rest)))
      (front.length + (text.length + 1)) = .ok (name, (front ++ text ++ [dollar]).length + (name.length + 1)) := by
    rw [hvalue, hposition]
    exact declared_append _ hname rest (by omega)
  have hbefore : ((front ++ (text ++ marks.first :: marks.second :: (name ++ marks.close :: rest))).drop
      front.length).take (front.length + (text.length + 1) - front.length - 1) = text := by
    rw [List.drop_left, Nat.add_sub_cancel_left, Nat.add_sub_cancel, List.take_left]
  rw [expandLoop_of_findOpenDecl emptyBack hopened, hbefore, hdeclared]
  simp only [Except.bind, insertPiece]
  rw [hend, throughInt_of_lt hlength]
  cases insertAtBack emptyBack exp text with
  | error failure => rfl
  | ok exp => rfl

/-- **The loop inserts the pieces** one after the other, and puts the tail behind them. -/
theorem expandLoop_pieces (emptyBack : Option Byte) (subst : Str → Str) {pieces : List (Piece Byte)}
    (hpieces : ∀ piece ∈ pieces, piece.Valid marks) {tail : Str} (htail : marks.Free tail) (front : Str)
    (hlength : (front ++ pieces.flatMap (Piece.source marks)).length < 2 ^ 31) {fuel : Nat}
    (hfuel : pieces.length < fuel) {vars : StringMap} (hvars : ∀ key, vars.find key = subst key) (exp : Str) :
    expandLoop emptyBack (front ++ (pieces.flatMap (Piece.source marks) ++ tail)) fuel vars front.length exp
      = (pieces.foldlM (insertPiece emptyBack subst) exp).bind fun exp => .ok (exp ++ cstr tail) := by
  obtain ⟨fuel, rfl⟩ := Nat.exists_eq_add_one_of_ne_zero (Nat.ne_zero_of_lt hfuel)
  induction pieces generalizing front fuel vars exp with
  | nil => exact expandLoop_of_free emptyBack front htail fuel vars exp
  | cons piece pieces ih =>
      obtain ⟨hpiece, hpieces⟩ := List.forall_mem_cons.mp hpieces
      rw [List.flatMap_cons, ← List.append_assoc] at hlength
      have hfirst : (front ++ piece.source marks).length < 2 ^ 31 := by
        rw [List.length_append] at hlength
        omega
      have hsubst : vars.find = subst := funext hvars
      obtain ⟨fuel, rfl⟩ := Nat.exists_eq_add_one_of_ne_zero (Nat.ne_zero_of_lt (Nat.lt_of_succ_lt_succ hfuel))
      rw [List.flatMap_cons, List.append_assoc, expandLoop_piece emptyBack front hpiece _ hfirst, hsubst,
        List.foldlM_cons, ← List.append_assoc front]
      cases insertPiece emptyBack subst exp piece with
      | error failure => rfl
      | ok exp =>
          apply ih hpieces (front ++ piece.source marks) hlength
          · intro key
            rw [StringMap.find_lookup, hvars]
          · exact Nat.lt_of_succ_lt_succ hfuel

theorem length_le_flatMap_source (pieces : List (Piece Byte)) :
    pieces.length ≤ (pieces.flatMap (Piece.source marks)).length := by
  induction pieces with
  | nil => exact Nat.zero_le _
  | cons piece pieces ih =>
      rw [List.flatMap_cons, List.length_append, Piece.source]
      simp only [List.length_append, List.length_cons]
      omega

/-- **A value whose variables are closed** is expanded piece by piece, whatever `back` of an empty string reads. -/
theorem expandVariables_pieces (emptyBack : Option Byte) (vars : StringMap) {pieces : List (Piece Byte)}
    (hpieces : ∀ piece ∈ pieces, piece.Valid marks) {tail : Str} (htail : marks.Free tail)
    (hlength : (pieces.flatMap (Piece.source marks)).length < 2 ^ 31) (exp : Str) :
    expandVariables emptyBack vars (pieces.flatMap (Piece.source marks) ++ tail) exp
      = (pieces.foldlM (insertPiece emptyBack vars.find) exp).bind fun exp => .ok (exp ++ cstr tail) := by
  have hfuel : pieces.length < (pieces.flatMap (Piece.source marks) ++ tail).length + 1 := by
    have hle := length_le_flatMap_source pieces
    rw [List.length_append]
    omega
  exact expandLoop_pieces emptyBack vars.find hpieces htail [] hlength hfuel (fun _ => rfl) exp

theorem perm_of_insertAtBack {emptyBack : Option Byte} {exp text exp' : Str}
    (h : insertAtBack emptyBack exp text = .ok exp') : exp'.Perm (exp ++ text) := by
  rw [insertAtBack] at h
  split at h
  · cases h
  · rename_i back hback
    split at h
    · cases h
    · have hswap : (text ++ exp.drop (charToSize back)).Perm (exp.drop (charToSize back) ++ text) :=
        List.perm_append_comm
      rw [← Except.ok.inj h, List.append_assoc]
      apply (hswap.append_left _).trans
      rw [← List.append_assoc, List.take_append_drop]

theorem perm_of_insertPiece {emptyBack : Option Byte} {subst : Str → Str} {exp exp' : Str} {piece : Piece Byte}
    (h : insertPiece emptyBack subst exp piece = .ok exp') : exp'.Perm (exp ++ piece.expanded subst) := by
  obtain ⟨inserted, hinsert, hexp⟩ := Run.bind_eq_ok h
  rw [← Except.ok.inj hexp, Piece.expanded, ← List.append_assoc]
  exact (perm_of_insertAtBack hinsert).append_right _

/-- **What comes back** has the characters of the expanded value, in whatever order. -/
theorem expandVariables_perm {emptyBack : Option Byte} {vars : StringMap} {value : Str} (hclosed : marks.Closed value)
    (hlength : value.length < 2 ^ 31) (hnul : nul ∉ value) {exp result : Str}
    (h : expandVariables emptyBack vars value exp = .ok result) :
    result.Perm (exp ++ marks.expand vars.find value) := by
  obtain ⟨pieces, tail, rfl, hpieces, htail⟩ := hclosed.exists_pieces
  have hsources : (pieces.flatMap (Piece.source marks)).length < 2 ^ 31 := by
    rw [List.length_append] at hlength
    omega
  rw [expandVariables_pieces emptyBack vars hpieces htail hsources] at h
  obtain ⟨inserted, hloop, hresult⟩ := Run.bind_eq_ok h
  have hinserted : inserted.Perm (exp ++ pieces.flatMap (Piece.expanded vars.find)) := by
    apply Run.foldlM_invariant (P := fun front s => s.Perm (exp ++ front.flatMap (Piece.expanded vars.find)))
      _ _ hloop
    · intro front piece s s' hs hstep
      rw [List.flatMap_append, ← List.append_assoc]
      simpa using (perm_of_insertPiece hstep).trans (hs.append_right _)
    · simp
  have htailNul : nul ∉ tail := fun hmem => hnul (List.mem_append_right _ hmem)
  rw [← Except.ok.inj hresult, expand_pieces vars.find hpieces htail, cstr_eq_self htailNul, ← List.append_assoc]
  exact hinserted.append_right _

/-! ### Where `back` of an empty string reads a NUL -/

theorem insertAtBack_nil (text : Str) : insertAtBack (some nul) [] text = .ok text := by
  simp [insertAtBack, charToSize]

theorem insertAtBack_of_long (emptyBack : Option Byte) {exp : Str} {back : Byte} (hback : exp.getLast? = some back)
    (hlong : exp.length < charToSize back) (text : Str) : insertAtBack emptyBack exp text = .error .outOfRange := by
  rw [insertAtBack, hback, Option.some_or]
  exact if_pos hlong

theorem insertPiece_nil (subst : Str → Str) (piece : Piece Byte) :
    insertPiece (some nul) subst [] piece = .ok (piece.expanded subst) := by
  rw [insertPiece, insertAtBack_nil, Piece.expanded]
  rfl

variable (vars : StringMap) {first : Piece Byte} {tail : Str}

theorem expandVariables_one (hfirst : first.Valid marks) (htail : marks.Free tail)
    (hlength : (first.source marks).length < 2 ^ 31) :
    expandVariables (some nul) vars (first.source marks ++ tail) []
      = .ok (first.expanded vars.find ++ cstr tail) := by
  have hone : [first].flatMap (Piece.source marks) = first.source marks := by simp
  have hloop := expandVariables_pieces (some nul) vars (List.forall_mem_singleton.mpr hfirst) htail
    (hone ▸ hlength) []
  rw [hone] at hloop
  rw [hloop, List.foldlM_cons, insertPiece_nil]
  rfl

/-- **The second one** makes `insert` throw, unless the text so far is as long as its last character is large. -/
theorem expandVariables_two {second : Piece Byte} {more : List (Piece Byte)}
    (hpieces : ∀ piece ∈ first :: second :: more, piece.Valid marks) (htail : marks.Free tail)
    (hlength : ((first :: second :: more).flatMap (Piece.source marks)).length < 2 ^ 31) {back : Byte}
    (hback : (first.expanded vars.find).getLast? = some back)
    (hlong : (first.expanded vars.find).length < charToSize back) :
    expandVariables (some nul) vars ((first :: second :: more).flatMap (Piece.source marks) ++ tail) []
      = .error .outOfRange := by
  rw [expandVariables_pieces (some nul) vars hpieces htail hlength, List.foldlM_cons, insertPiece_nil]
  have hsecond : insertPiece (some nul) vars.find (first.expanded vars.find) second = .error .outOfRange := by
    rw [insertPiece, insertAtBack_of_long (some nul) hback hlong]
    rfl
  change ((second :: more).foldlM (insertPiece (some nul) vars.find) (first.expanded vars.find)).bind _ = _
  rw [List.foldlM_cons, hsecond]
  rfl

end Rikitiki.Configuration
