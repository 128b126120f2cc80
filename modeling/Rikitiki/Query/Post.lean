import Rikitiki.Library.Multimap
import Rikitiki.Library.Separated
import Rikitiki.Query.Form

/-!
# Form bodies

`mapContents` goes through a body with the start of the current piece and a name. The name is what stands in
front of the last `=`, as it is; only values are unescaped. It is never cleared, so that a token without `=`
is inserted under the name of an earlier one, and `unescapeString` asserts that there is a value.
-/

namespace Rikitiki

/-- `PostCollection` -/
abbrev PostCollection := Multimap Str Str

abbrev percentSign : Byte := 37
abbrev plusSign : Byte := 43

/-- The loop of `unescapeString`. An escape is followed by two more characters; `strtol` reads what it can of
them, and its value is cast to a character. -/
def unescapeLoop : Str → Str
  | [] => []
  | b :: rest =>
    if b = percentSign then
      match rest with
      | c :: d :: rest => UInt8.ofNat ((strtol 16 (cstr [c, d])).1 % 256).toNat :: unescapeLoop rest
      | rest => b :: unescapeLoop rest
    else b :: unescapeLoop rest

/-- `unescapeString`, or `none` when `assert(e > s)` fails. -/
def unescapeString (s : Str) : Option Str := if s = [] then none else some (unescapeLoop s)

/-- The loop of `mapContents`, with `piece` between `l_it` and `it`. -/
def mapContentsFrom (name piece : Str) (post : PostCollection) : Str → Option PostCollection
  | [] => some post
  | b :: rest =>
    if b = equalsSign then mapContentsFrom piece [] post rest
    else if b = ampersandSign then
      (unescapeString piece).bind fun value => mapContentsFrom name [] (post.insert name value) rest
    else mapContentsFrom name (piece ++ [b]) post rest

/-- `std::replace` of `+` by a space. -/
def replacePlus (s : Str) : Str := s.map fun b => if b = plusSign then space else b

/-- `mapContents`, or `none` when an assertion fails. -/
def mapContents (raw : Str) (post : PostCollection) : Option PostCollection :=
  if raw = [] then some post
  else
    mapContentsFrom [] [] post
      (replacePlus (if raw.getLast? = some ampersandSign then raw else raw ++ [ampersandSign]))

/-! ### Tokens -/

def tokens (raw : Str) : List Str :=
  (replacePlus (if raw.getLast? = some ampersandSign then raw.dropLast else raw)).splitOn ampersandSign

/-- The name in force behind a token, and the value of the token. -/
def readToken (name token : Str) : Str × Str :=
  ((token.splitOn equalsSign).dropLast.getLast?.getD name, (token.splitOn equalsSign).getLast?.getD [])

/-- What the tokens of a body insert. -/
def insertTokens (name : Str) (post : PostCollection) : List Str → Option PostCollection
  | [] => some post
  | token :: tokens =>
    (unescapeString (readToken name token).2).bind fun value =>
      insertTokens (readToken name token).1 (post.insert (readToken name token).1 value) tokens

def lastName (name : Str) (tokens : List Str) : Str :=
  tokens.foldl (fun name token => (readToken name token).1) name

theorem readToken_of_notMem {token : Str} (h : equalsSign ∉ token) (name : Str) :
    readToken name token = (name, token) := by
  rw [readToken, List.splitOn_eq_singleton h]
  rfl

theorem readToken_append_cons {key : Str} (h : equalsSign ∉ key) (name rest : Str) :
    readToken name (key ++ equalsSign :: rest) = readToken key rest := by
  obtain ⟨s, more, hsplit⟩ := List.exists_cons_of_ne_nil (List.splitOn_ne_nil equalsSign rest)
  have hkey := List.splitOn_append_cons_self_of_not_mem h rest
  rw [readToken, readToken, hkey, hsplit]
  simp [List.getLast?_cons]

theorem mapContentsFrom_token {token : Str} (htoken : ampersandSign ∉ token) (name : Str) {piece : Str}
    (hpiece : equalsSign ∉ piece) (post : PostCollection) (rest : Str) :
    mapContentsFrom name piece post (token ++ ampersandSign :: rest) =
      (unescapeString (readToken name (piece ++ token)).2).bind fun value =>
        mapContentsFrom (readToken name (piece ++ token)).1 []
          (post.insert (readToken name (piece ++ token)).1 value) rest := by
  induction token generalizing name piece with
  | nil =>
      rw [List.append_nil, readToken_of_notMem hpiece]
      rfl
  | cons b token ih =>
      obtain ⟨hb, htoken⟩ := not_or.mp (List.mem_cons.not.mp htoken)
      rw [List.cons_append, mapContentsFrom]
      by_cases hequals : b = equalsSign
      · rw [if_pos hequals, hequals, readToken_append_cons hpiece, ih htoken piece (by simp), List.nil_append]
      · have hnext : equalsSign ∉ piece ++ [b] := by simp [hpiece, Ne.symm hequals]
        rw [if_neg hequals, if_neg (Ne.symm hb), ih htoken name hnext, List.append_assoc]
        rfl

theorem mapContentsFrom_tokens {tokens : List Str} (htokens : ∀ token ∈ tokens, ampersandSign ∉ token)
    (name : Str) (post : PostCollection) :
    mapContentsFrom name [] post (tokens.flatMap (· ++ [ampersandSign])) = insertTokens name post tokens := by
  induction tokens generalizing name post with
  | nil => rfl
  | cons token tokens ih =>
      obtain ⟨htoken, htokens⟩ := List.forall_mem_cons.mp htokens
      rw [List.flatMap_cons, List.append_assoc, List.singleton_append,
        mapContentsFrom_token htoken name (by simp), insertTokens]
      simp only [List.nil_append, ih htokens]

theorem replacePlus_append (s t : Str) : replacePlus (s ++ t) = replacePlus s ++ replacePlus t :=
  List.map_append

/-- **`mapContents` inserts its tokens**, one after the other. -/
theorem mapContents_eq {raw : Str} (hraw : raw ≠ []) (post : PostCollection) :
    mapContents raw post = insertTokens [] post (tokens raw) := by
  have hclosed : ∀ s : Str, replacePlus (s ++ [ampersandSign])
      = ((replacePlus s).splitOn ampersandSign).flatMap (· ++ [ampersandSign]) := by
    intro s
    rw [replacePlus_append, Separated.flatMap_splitOn]
    rfl
  have htokens : ∀ token ∈ tokens raw, ampersandSign ∉ token := fun token htoken =>
    Separated.notMem_of_mem_splitOn htoken
  rw [mapContents, if_neg hraw, ← mapContentsFrom_tokens htokens, tokens]
  split
  · rename_i hlast
    rw [← hclosed, List.dropLast_append_getLast? _ hlast]
  · rw [← hclosed]

/-! ### The assertion -/

def Valued (token : Str) : Prop := token ≠ [] ∧ token.getLast? ≠ some equalsSign

instance (token : Str) : Decidable (Valued token) := inferInstanceAs (Decidable (_ ∧ _))

theorem readToken_value_ne_nil (name token : Str) : (readToken name token).2 ≠ [] ↔ Valued token := by
  induction hlength : token.length using Nat.strong_induction_on generalizing name token with
  | _ length ih =>
      by_cases hequals : equalsSign ∈ token
      · obtain ⟨key, rest, rfl, hkey⟩ := List.eq_append_cons_of_mem hequals
        have hrest := ih rest.length (by simp [← hlength]; omega) key rest rfl
        rw [readToken_append_cons hkey, hrest, Valued, Valued]
        cases rest <;> simp [List.getLast?_append, List.getLast?_cons]
      · have hlast : token.getLast? ≠ some equalsSign := fun h => hequals (List.mem_of_getLast? h)
        rw [readToken_of_notMem hequals, Valued, and_iff_left hlast]

theorem unescapeString_eq_none {s : Str} : unescapeString s = none ↔ s = [] := by
  rw [unescapeString]
  split <;> simp_all

theorem insertTokens_eq_none {name : Str} {post : PostCollection} {tokens : List Str} :
    insertTokens name post tokens = none ↔ ∃ token ∈ tokens, ¬ Valued token := by
  induction tokens generalizing name post with
  | nil => simp [insertTokens]
  | cons token tokens ih =>
      have hfirst : ¬ Valued token ↔ unescapeString (readToken name token).2 = none := by
        rw [← readToken_value_ne_nil name, not_not, unescapeString_eq_none]
      rw [insertTokens]
      cases hvalue : unescapeString (readToken name token).2 with
      | none =>
          have hbad : ¬ Valued token := hfirst.mpr hvalue
          simp [hbad]
      | some value =>
          have hgood : Valued token := by
            by_contra hbad
            rw [hfirst.mp hbad] at hvalue
            cases hvalue
          simp [ih, hgood]

/-! ### Names -/

theorem insertTokens_append (name : Str) (post : PostCollection) (tokens more : List Str) :
    insertTokens name post (tokens ++ more)
      = (insertTokens name post tokens).bind fun after => insertTokens (lastName name tokens) after more := by
  induction tokens generalizing name post with
  | nil => rfl
  | cons token tokens ih =>
      rw [List.cons_append, insertTokens, insertTokens]
      cases unescapeString (readToken name token).2 with
      | none => rfl
      | some value => exact ih _ _

def Ended (front : Str) : Prop := front = [] ∨ front.getLast? = some ampersandSign

structure Nameless (token : Str) : Prop where
  ne_nil : token ≠ []
  equals : equalsSign ∉ token
  ampersand : ampersandSign ∉ token

/-- A token is inserted behind some text as it is inserted without that text. -/
def NamesItself (front token : Str) : Prop :=
  ∀ post, mapContents (front ++ token) post = (mapContents front post).bind (mapContents token)

/-- The name in force behind some text. -/
def nameBehind (front : Str) : Str := if front = [] then [] else lastName [] (tokens front)

theorem notMem_replacePlus {s : Str} {b : Byte} (hspace : b ≠ space) (h : b ∉ s) : b ∉ replacePlus s := by
  intro hmem
  obtain ⟨c, hc, hreplaced⟩ := List.mem_map.mp hmem
  split at hreplaced
  · exact hspace hreplaced.symm
  · exact h (hreplaced ▸ hc)

theorem tokens_nameless {token : Str} (h : Nameless token) : tokens token = [replacePlus token] := by
  have hlast : token.getLast? ≠ some ampersandSign := fun hlast => h.ampersand (List.mem_of_getLast? hlast)
  rw [tokens, if_neg hlast, List.splitOn_eq_singleton (notMem_replacePlus (by decide) h.ampersand)]

theorem tokens_append {front token : Str} (hfront : front.getLast? = some ampersandSign)
    (h : Nameless token) : tokens (front ++ token) = tokens front ++ [replacePlus token] := by
  obtain ⟨init, rfl⟩ := List.getLast?_eq_some_iff.mp hfront
  have hlast : (init ++ [ampersandSign] ++ token).getLast? ≠ some ampersandSign := by
    rw [List.getLast?_append_of_ne_nil _ h.ne_nil]
    exact fun hlast => h.ampersand (List.mem_of_getLast? hlast)
  have hsplit : ∀ s t : Str, (replacePlus (s ++ [ampersandSign] ++ t)).splitOn ampersandSign
      = (replacePlus s).splitOn ampersandSign ++ (replacePlus t).splitOn ampersandSign := by
    intro s t
    rw [List.append_assoc, replacePlus_append, List.singleton_append]
    exact List.splitOn_append_cons_self _ _
  rw [tokens, if_neg hlast, hsplit, tokens, if_pos hfront, List.dropLast_concat,
    List.splitOn_eq_singleton (notMem_replacePlus (by decide) h.ampersand)]

theorem insertTokens_nameless {token : Str} (h : Nameless token) (name : Str) (post : PostCollection) :
    insertTokens name post [replacePlus token]
      = some (post.insert name (unescapeLoop (replacePlus token))) := by
  have hne : replacePlus token ≠ [] := fun hnil => h.ne_nil (List.map_eq_nil_iff.mp hnil)
  rw [insertTokens, readToken_of_notMem (notMem_replacePlus (by decide) h.equals)]
  simp only [unescapeString, if_neg hne, Option.bind_some]
  rfl

def AllValued (raw : Str) : Prop := raw = [] ∨ ∀ token ∈ tokens raw, Valued token

theorem mapContents_eq_none {raw : Str} (post : PostCollection) :
    mapContents raw post = none ↔ ¬ AllValued raw := by
  by_cases hraw : raw = []
  · simp [mapContents, AllValued, hraw]
  · rw [mapContents_eq hraw, insertTokens_eq_none, AllValued, or_iff_right hraw]
    simp

theorem namesItself_iff {front token : Str} (hfront : Ended front) (htoken : Nameless token) :
    NamesItself front token ↔ nameBehind front = [] ∨ ¬ AllValued front := by
  have halone : ∀ post, mapContents token post = some (post.insert [] (unescapeLoop (replacePlus token))) := by
    intro post
    rw [mapContents_eq htoken.ne_nil, tokens_nameless htoken, insertTokens_nameless htoken]
  have hbehind : ∀ post, mapContents (front ++ token) post = (mapContents front post).bind fun after =>
      some (after.insert (nameBehind front) (unescapeLoop (replacePlus token))) := by
    intro post
    rcases hfront with rfl | hfront
    · exact halone post
    · have hne : front ≠ [] := by
        rintro rfl
        cases hfront
      rw [mapContents_eq (by simp [hne]), tokens_append hfront htoken, insertTokens_append,
        ← mapContents_eq hne, nameBehind, if_neg hne]
      exact congrArg _ (funext fun after => insertTokens_nameless htoken _ after)
  constructor
  · intro h
    by_cases hvalued : AllValued front
    · obtain ⟨after, hafter⟩ := Option.ne_none_iff_exists'.mp fun hnone =>
        (mapContents_eq_none ∅).mp hnone hvalued
      have hboth := h ∅
      rw [hbehind, hafter, Option.bind_some, Option.bind_some, halone, Option.some.injEq] at hboth
      exact .inl (Prod.mk.inj (Multimap.insert_injective hboth)).1
    · exact .inr hvalued
  · rintro (hname | hvalued) post
    · rw [hbehind, hname]
      exact congrArg _ (funext fun after => (halone after).symm)
    · rw [hbehind, (mapContents_eq_none post).mpr hvalued]
      rfl

/-! ### Forms -/

def spaced (s : Str) : Str := replacePlus (formEncode s)

theorem replacePlus_encodeByte (b : Byte) :
    replacePlus (encodeByte b) = if b = space ∨ Unescaped b then [b] else encodeByte b := by
  have hall : ∀ n < 256, replacePlus (encodeByte n.toUInt8)
      = if n.toUInt8 = space ∨ Unescaped n.toUInt8 then [n.toUInt8] else encodeByte n.toUInt8 := by
    decide +kernel
  simpa using hall b.toNat b.toNat_lt

theorem strtol_hexDigits (b : Byte) :
    UInt8.ofNat ((strtol 16 (cstr [hexDigit (b / 16), hexDigit (b % 16)])).1 % 256).toNat = b := by
  have hall : ∀ n < 256, UInt8.ofNat ((strtol 16
      (cstr [hexDigit (n.toUInt8 / 16), hexDigit (n.toUInt8 % 16)])).1 % 256).toNat = n.toUInt8 := by
    decide +kernel
  simpa using hall b.toNat b.toNat_lt

theorem unescapeLoop_cons {b : Byte} (hb : b ≠ percentSign) (rest : Str) :
    unescapeLoop (b :: rest) = b :: unescapeLoop rest := by
  rcases rest with _ | ⟨c, _ | ⟨d, rest⟩⟩ <;> simp [unescapeLoop, hb]

theorem unescapeLoop_byte (b : Byte) (rest : Str) :
    unescapeLoop (replacePlus (encodeByte b) ++ rest) = b :: unescapeLoop rest := by
  rw [replacePlus_encodeByte]
  by_cases hkept : b = space ∨ Unescaped b
  · have hne : b ≠ percentSign := by
      rintro rfl
      revert hkept
      decide
    rw [if_pos hkept, List.singleton_append, unescapeLoop_cons hne]
  · obtain ⟨hspace, hunescaped⟩ := not_or.mp hkept
    rw [if_neg hkept, encodeByte, if_neg hspace, if_neg hunescaped]
    exact congrArg (· :: unescapeLoop rest) (strtol_hexDigits b)

/-- **Values are decoded.** -/
theorem unescapeLoop_spaced (value : Str) : unescapeLoop (spaced value) = value := by
  induction value with
  | nil => rfl
  | cons b value ih =>
      rw [spaced, formEncode, List.flatMap_cons, ← formEncode, replacePlus_append, unescapeLoop_byte, ← spaced, ih]

theorem length_spaced (name : Str) : (spaced name).length = (formEncode name).length := List.length_map _

theorem spaced_eq_self_iff {name : Str} : spaced name = name ↔ ∀ b ∈ name, b = space ∨ Unescaped b := by
  constructor
  · intro h
    apply (length_formEncode name).2
    rw [← length_spaced, h]
  · intro h
    induction name with
    | nil => rfl
    | cons b name ih =>
        obtain ⟨hb, hname⟩ := List.forall_mem_cons.mp h
        rw [spaced, formEncode, List.flatMap_cons, ← formEncode, replacePlus_append, replacePlus_encodeByte,
          if_pos hb, ← spaced, ih hname]
        rfl

def pairToken (pair : Str × Str) : Str := spaced pair.1 ++ equalsSign :: spaced pair.2

theorem replacePlus_queryText (pairs : List (Str × Str)) :
    replacePlus (queryText (encoded pairs)) = [ampersandSign].intercalate (pairs.map pairToken) := by
  have hpair : ∀ pair : Str × Str, replacePlus (pairText (formEncode pair.1, formEncode pair.2)) = pairToken pair :=
    fun pair => replacePlus_append _ _
  induction pairs with
  | nil => rfl
  | cons pair pairs ih =>
      cases pairs with
      | nil => simpa [encoded, queryText] using hpair pair
      | cons next pairs =>
          have htext : queryText (encoded (pair :: next :: pairs))
              = pairText (formEncode pair.1, formEncode pair.2)
                ++ ([ampersandSign] ++ queryText (encoded (next :: pairs))) := rfl
          rw [htext, replacePlus_append, replacePlus_append, hpair, ih]
          exact (Separated.intercalate_cons_cons_eq _ _ _).symm

theorem equals_notMem_spaced (s : Str) : equalsSign ∉ spaced s :=
  notMem_replacePlus (by decide) fun h => (formEncode_clean h).2.2.1 rfl

theorem ampersand_notMem_spaced (s : Str) : ampersandSign ∉ spaced s :=
  notMem_replacePlus (by decide) fun h => (formEncode_clean h).2.2.2 rfl

theorem tokens_formText {pairs : List (Str × Str)} (hpairs : pairs ≠ []) :
    tokens (formText pairs) = pairs.map pairToken := by
  have hfree : ∀ token ∈ pairs.map pairToken, ampersandSign ∉ token := by
    intro token htoken
    obtain ⟨pair, -, rfl⟩ := List.mem_map.mp htoken
    rw [pairToken, List.mem_append, List.mem_cons, not_or, not_or]
    exact ⟨ampersand_notMem_spaced _, by decide, ampersand_notMem_spaced _⟩
  have hsplit : (replacePlus (formText pairs)).splitOn ampersandSign = pairs.map pairToken := by
    rw [formText, replacePlus_queryText, List.splitOn_intercalate ampersandSign hfree (by simpa using hpairs)]
  have hlast : (formText pairs).getLast? ≠ some ampersandSign := by
    intro hlast
    obtain ⟨init, hinit⟩ := List.getLast?_eq_some_iff.mp hlast
    have hends : (replacePlus (init ++ [ampersandSign])).splitOn ampersandSign
        = (replacePlus init).splitOn ampersandSign ++ [[]] := by
      rw [replacePlus_append]
      exact List.splitOn_append_cons_self _ _
    have hempty : [] ∈ pairs.map pairToken := by
      rw [← hsplit, hinit, hends]
      exact List.mem_append_right _ List.mem_cons_self
    obtain ⟨pair, -, hpair⟩ := List.mem_map.mp hempty
    exact absurd hpair (by simp [pairToken])
  rw [tokens, if_neg hlast, hsplit]

theorem insertTokens_pairs {pairs : List (Str × Str)} (hvalues : ∀ pair ∈ pairs, pair.2 ≠ []) (name : Str)
    (post : PostCollection) : insertTokens name post (pairs.map pairToken)
      = some (post.insertAll (pairs.map fun pair => (spaced pair.1, pair.2))) := by
  induction pairs generalizing name post with
  | nil => rfl
  | cons pair pairs ih =>
      obtain ⟨hvalue, hvalues⟩ := List.forall_mem_cons.mp hvalues
      have hread : readToken name (pairToken pair) = (spaced pair.1, spaced pair.2) := by
        rw [pairToken, readToken_append_cons (equals_notMem_spaced _)]
        exact readToken_of_notMem (equals_notMem_spaced _) _
      have hne : spaced pair.2 ≠ [] := by
        rw [← List.length_pos_iff, length_spaced]
        exact Nat.lt_of_lt_of_le (List.length_pos_of_ne_nil hvalue) (length_formEncode pair.2).1
      rw [List.map_cons, insertTokens, hread, unescapeString, if_neg hne, unescapeLoop_spaced,
        Option.bind_some, ih hvalues]
      rfl

/-- A form comes out as it went in. -/
def ReadsForm (pairs : List (Str × Str)) : Prop :=
  mapContents (formText pairs) ∅ = some (Multimap.insertAll ∅ pairs)

theorem unescaped_of_perm {pairs : List (Str × Str)}
    (h : (pairs.map fun pair => (spaced pair.1, pair.2)).Perm pairs) :
    ∀ pair ∈ pairs, ∀ b ∈ pair.1, b = space ∨ Unescaped b := by
  have hsum : (pairs.map fun pair => (formEncode pair.1).length).sum
      = (pairs.map fun pair => pair.1.length).sum := by
    rw [← (h.map fun pair => pair.1.length).sum_eq, List.map_map]
    simp only [Function.comp_def, length_spaced]
  intro pair hpair
  apply (length_formEncode pair.1).2
  by_contra hgrown
  have hlt : (pairs.map fun pair => pair.1.length).sum
      < (pairs.map fun pair => (formEncode pair.1).length).sum := by
    apply List.sum_lt_sum
    · intro other _
      exact (length_formEncode other.1).1
    · exact ⟨pair, hpair, lt_of_le_of_ne (length_formEncode pair.1).1 (Ne.symm hgrown)⟩
  omega

theorem readsForm_iff {pairs : List (Str × Str)} (hpairs : pairs ≠ []) :
    ReadsForm pairs ↔ ∀ pair ∈ pairs, pair.2 ≠ [] ∧ ∀ b ∈ pair.1, b = space ∨ Unescaped b := by
  rw [ReadsForm, mapContents_eq (formText_ne_nil hpairs), tokens_formText hpairs]
  constructor
  · intro h
    have hvalues : ∀ pair ∈ pairs, pair.2 ≠ [] := by
      intro pair hpair hempty
      have hnot : ¬ Valued (pairToken pair) := by
        rintro ⟨-, hlast⟩
        apply hlast
        rw [pairToken, hempty]
        exact List.getLast?_concat
      rw [insertTokens_eq_none.mpr ⟨_, List.mem_map_of_mem hpair, hnot⟩] at h
      cases h
    rw [insertTokens_pairs hvalues, Option.some.injEq] at h
    have hperm : (pairs.map fun pair => (spaced pair.1, pair.2)).Perm pairs := by
      have hleft := Multimap.insertAll_perm ∅ (pairs.map fun pair => (spaced pair.1, pair.2))
      have hright := Multimap.insertAll_perm (∅ : PostCollection) pairs
      rw [Multimap.elements_empty, List.append_nil] at hleft hright
      exact hleft.symm.trans (h ▸ hright)
    exact fun pair hpair => ⟨hvalues pair hpair, unescaped_of_perm hperm pair hpair⟩
  · intro h
    have hnames : pairs.map (fun pair => (spaced pair.1, pair.2)) = pairs := by
      rw [List.map_congr_left (g := id) fun pair hpair => ?_, List.map_id]
      rw [spaced_eq_self_iff.mpr (h pair hpair).2]
      rfl
    rw [insertTokens_pairs fun pair hpair => (h pair hpair).1, hnames]

/-- No body makes the assertion fail. -/
def AssertionHolds (body : Str) : Prop := ∀ post, mapContents body post ≠ none

/-- **What `mapContents` makes of forms, of tokens without a name, and of any body.** -/
theorem mapContents_iff {pairs : List (Str × Str)} (hpairs : pairs ≠ []) {front token : Str}
    (hfront : Ended front) (htoken : Nameless token) (body : Str) :
    (ReadsForm pairs ↔ ∀ pair ∈ pairs, pair.2 ≠ [] ∧ ∀ b ∈ pair.1, b = space ∨ Unescaped b) ∧
      (NamesItself front token ↔ nameBehind front = [] ∨ ¬ AllValued front) ∧
      (AssertionHolds body ↔ AllValued body) := by
  refine ⟨readsForm_iff hpairs, namesItself_iff hfront htoken, ?_⟩
  constructor
  · intro h
    by_contra hnot
    exact h ∅ ((mapContents_eq_none ∅).mpr hnot)
  · intro h post hnone
    exact (mapContents_eq_none post).mp hnone h

theorem mapContents_letters :
    ReadsForm [(lit "a b", lit "1+2"), (lit "c", lit "&")] ∧ NamesItself (lit "=1&") (lit "x") ∧
      AssertionHolds (lit "a=1&b=2") := by
  have hpairs : [(lit "a b", lit "1+2"), (lit "c", lit "&")] ≠ [] := by simp
  have hfront : Ended (lit "=1&") := .inr rfl
  have htoken : Nameless (lit "x") := ⟨by decide, by decide, by decide⟩
  have h := mapContents_iff hpairs hfront htoken (lit "a=1&b=2")
  exact ⟨h.1.mpr (by decide), h.2.1.mpr (.inl (by decide)), h.2.2.mpr (.inr (by decide))⟩

/-- A name is not decoded, a name is used again, and the assertion fails on an empty value. -/
theorem not_mapContents :
    ¬ ReadsForm [(lit "a/b", lit "1")] ∧ ¬ NamesItself (lit "a=1&") (lit "x") ∧ ¬ AssertionHolds (lit "a=") := by
  refine ⟨fun h => ?_, fun h => ?_, fun h => h ∅ (by decide)⟩
  · have hname := ((readsForm_iff (by simp)).mp h _ List.mem_cons_self).2
    exact absurd (hname 47 (by decide)) (by decide)
  · rcases (namesItself_iff (.inr rfl) ⟨by decide, by decide, by decide⟩).mp h with hname | hvalued
    · exact absurd hname (by decide)
    · exact hvalued (.inr (by decide))

end Rikitiki
