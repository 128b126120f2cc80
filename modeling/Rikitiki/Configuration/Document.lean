import Mathlib.Logic.Function.Basic
import Rikitiki.Configuration

/-!
# The pass over a configuration

`performSubstitutions` goes through the settings of a configuration and replaces each text by its expansion, in
the variables given and the settings it has been at. On the texts of the document, in their order, it is a
single loop: a name stands for the last setting of that path in front, and never for one behind.
-/

namespace Rikitiki.Configuration

open Templates

/-! ### Settings -/

mutual

/-- `libconfig::Setting` -/
inductive Setting where
  | text (value : Str)
  /-- a number or a truth value -/
  | scalar
  /-- a group, an array or a list -/
  | aggregate (settings : Settings)

inductive Settings where
  | nil
  | cons (name : Option Str) (setting : Setting) (rest : Settings)

end

/-- `getPath` of a setting in one whose path is known. -/
def pathIn (path : Str) (index : Nat) (name : Option Str) : Str :=
  (if path = [] then [] else path ++ lit ".") ++ name.getD (lit "[" ++ decimal index ++ lit "]")

mutual

/-- `performSubstitutions`: the variables and the setting behind it. -/
def Setting.performSubstitutions (emptyBack : Option Byte) (path : Str) (vars : StringMap) :
    Setting → Except Failure (StringMap × Setting)
  | .text value =>
    (expandVariables emptyBack vars value []).map fun exp => (vars.insert path exp, .text (cstr exp))
  | .scalar => .ok (vars, .scalar)
  | .aggregate settings =>
    (settings.performSubstitutions emptyBack path 0 vars).map fun (vars, settings) => (vars, .aggregate settings)

/-- The loop of `performSubstitutions`, from an index on. -/
def Settings.performSubstitutions (emptyBack : Option Byte) (path : Str) (index : Nat) (vars : StringMap) :
    Settings → Except Failure (StringMap × Settings)
  | .nil => .ok (vars, .nil)
  | .cons name setting rest =>
    (setting.performSubstitutions emptyBack (pathIn path index name) vars).bind fun (vars, setting) =>
      (rest.performSubstitutions emptyBack path (index + 1) vars).map fun (vars, rest) =>
        (vars, .cons name setting rest)

end

/-! ### The texts of a document -/

/-- A text with the path of its setting. -/
abbrev Text := Str × Str

mutual

def Setting.texts (path : Str) : Setting → List Text
  | .text value => [(path, value)]
  | .scalar => []
  | .aggregate settings => settings.texts path 0

def Settings.texts (path : Str) (index : Nat) : Settings → List Text
  | .nil => []
  | .cons name setting rest => setting.texts (pathIn path index name) ++ rest.texts path (index + 1)

end

mutual

/-- A setting without what its texts say. -/
def Setting.shape : Setting → Setting
  | .text _ => .text []
  | .scalar => .scalar
  | .aggregate settings => .aggregate settings.shape

def Settings.shape : Settings → Settings
  | .nil => .nil
  | .cons name setting rest => .cons name setting.shape rest.shape

end

def pass (emptyBack : Option Byte) : StringMap → List Text → Except Failure (StringMap × List Text)
  | vars, [] => .ok (vars, [])
  | vars, (path, value) :: texts =>
    (expandVariables emptyBack vars value []).bind fun exp =>
      (pass emptyBack (vars.insert path exp) texts).map fun (vars, texts) => (vars, (path, cstr exp) :: texts)

variable {emptyBack : Option Byte}

theorem pass_append (vars : StringMap) (texts more : List Text) :
    pass emptyBack vars (texts ++ more) = (pass emptyBack vars texts).bind fun (vars, front) =>
      (pass emptyBack vars more).map fun (vars, back) => (vars, front ++ back) := by
  induction texts generalizing vars with
  | nil =>
      rw [List.nil_append, pass]
      simp only [Except.bind]
      cases pass emptyBack vars more <;> rfl
  | cons text texts ih =>
      obtain ⟨path, value⟩ := text
      rw [List.cons_append, pass, pass]
      cases expandVariables emptyBack vars value [] with
      | error failure => rfl
      | ok exp =>
          simp only [Except.bind, ih]
          cases pass emptyBack (vars.insert path exp) texts with
          | error failure => rfl
          | ok outcome =>
              simp only [Except.map]
              cases pass emptyBack outcome.1 more <;> rfl

mutual

/-- **The pass over the tree is the pass over its texts**, failures included. -/
theorem Setting.performSubstitutions_texts (path : Str) (vars : StringMap) : ∀ setting : Setting,
    (setting.performSubstitutions emptyBack path vars).map (fun (vars, setting) => (vars, setting.texts path))
      = pass emptyBack vars (setting.texts path)
  | .text value => by
      rw [Setting.performSubstitutions, Setting.texts, pass]
      cases expandVariables emptyBack vars value [] <;> rfl
  | .scalar => rfl
  | .aggregate settings => by
      have hsettings := Settings.performSubstitutions_texts path 0 vars settings
      rw [Setting.performSubstitutions, Setting.texts, ← hsettings]
      cases settings.performSubstitutions emptyBack path 0 vars <;> rfl

theorem Settings.performSubstitutions_texts (path : Str) (index : Nat) (vars : StringMap) : ∀ settings : Settings,
    (settings.performSubstitutions emptyBack path index vars).map
        (fun (vars, settings) => (vars, settings.texts path index))
      = pass emptyBack vars (settings.texts path index)
  | .nil => rfl
  | .cons name setting rest => by
      have hsetting := Setting.performSubstitutions_texts (pathIn path index name) vars setting
      rw [Settings.performSubstitutions, Settings.texts, pass_append, ← hsetting]
      cases setting.performSubstitutions emptyBack (pathIn path index name) vars with
      | error failure => rfl
      | ok outcome =>
          have hrest := Settings.performSubstitutions_texts path (index + 1) outcome.1 rest
          simp only [Except.bind, Except.map] at hrest ⊢
          rw [← hrest]
          cases rest.performSubstitutions emptyBack path (index + 1) outcome.1 <;> rfl

end

mutual

theorem Setting.shape_of_performSubstitutions {path : Str} {vars vars' : StringMap} : ∀ {setting setting' : Setting},
    setting.performSubstitutions emptyBack path vars = .ok (vars', setting') → setting'.shape = setting.shape
  | .text value, setting', h => by
      rw [Setting.performSubstitutions] at h
      cases hexp : expandVariables emptyBack vars value [] with
      | error failure =>
          rw [hexp] at h
          cases h
      | ok exp =>
          rw [hexp] at h
          obtain ⟨-, rfl⟩ := Prod.mk.inj (Except.ok.inj h)
          rfl
  | .scalar, setting', h => by
      obtain ⟨-, rfl⟩ := Prod.mk.inj (Except.ok.inj h)
      rfl
  | .aggregate settings, setting', h => by
      rw [Setting.performSubstitutions] at h
      cases hsettings : settings.performSubstitutions emptyBack path 0 vars with
      | error failure =>
          rw [hsettings] at h
          cases h
      | ok outcome =>
          have hshape := Settings.shape_of_performSubstitutions hsettings
          rw [hsettings] at h
          obtain ⟨-, rfl⟩ := Prod.mk.inj (Except.ok.inj h)
          rw [Setting.shape, Setting.shape, hshape]

theorem Settings.shape_of_performSubstitutions {path : Str} {index : Nat} {vars vars' : StringMap} :
    ∀ {settings settings' : Settings},
      settings.performSubstitutions emptyBack path index vars = .ok (vars', settings') →
        settings'.shape = settings.shape
  | .nil, settings', h => by
      obtain ⟨-, rfl⟩ := Prod.mk.inj (Except.ok.inj h)
      rfl
  | .cons name setting rest, settings', h => by
      rw [Settings.performSubstitutions] at h
      obtain ⟨⟨vars₁, setting₁⟩, hsetting, hrest⟩ := Run.bind_eq_ok h
      have hshape := Setting.shape_of_performSubstitutions hsetting
      simp only at hrest
      cases hlater : rest.performSubstitutions emptyBack path (index + 1) vars₁ with
      | error failure =>
          rw [hlater] at hrest
          cases hrest
      | ok outcome =>
          have hshapes := Settings.shape_of_performSubstitutions hlater
          rw [hlater] at hrest
          obtain ⟨-, rfl⟩ := Prod.mk.inj (Except.ok.inj hrest)
          rw [Settings.shape, Settings.shape, hshape, hshapes]

end

/-! ### What a text is replaced by -/

instance (value : Str) : Decidable (marks.Free value) :=
  inferInstanceAs (Decidable (¬ [marks.first, marks.second] <:+: value))

/-- A text that `expand_variables` can do: at most one variable, which is closed, and no NUL. -/
structure Simple (value : Str) : Prop where
  nul_notMem : nul ∉ value
  pieces : marks.Free value ∨ ∃ (first : Piece Byte) (tail : Str), first.Valid marks ∧ marks.Free tail ∧
    (first.source marks).length < 2 ^ 31 ∧ value = first.source marks ++ tail

/-- **A simple text is expanded**, where `back` of an empty string reads a NUL. -/
theorem Simple.expandVariables {value : Str} (h : Simple value) (vars : StringMap) :
    expandVariables (some nul) vars value [] = .ok (marks.expand vars.find value) := by
  rcases h.pieces with hfree | ⟨first, tail, hfirst, htail, hlength, rfl⟩
  · rw [expandVariables_of_free _ vars hfree, hfree.expand_eq, List.nil_append, cstr_eq_self h.nul_notMem]
  · have hexpand := expand_pieces vars.find (List.forall_mem_singleton.mpr hfirst) htail
    have hnul : nul ∉ tail := fun hmem => h.nul_notMem (List.mem_append_right _ hmem)
    rw [expandVariables_one vars hfirst htail hlength, cstr_eq_self hnul]
    simpa using hexpand.symm

theorem Simple.nul_notMem_expand {value : Str} (h : Simple value) {look : Str → Str}
    (hlook : ∀ name, nul ∉ look name) : nul ∉ marks.expand look value := by
  rcases h.pieces with hfree | ⟨first, tail, hfirst, htail, hlength, rfl⟩
  · rw [hfree.expand_eq]
    exact h.nul_notMem
  · have hexpand := expand_pieces look (List.forall_mem_singleton.mpr hfirst) htail
    simp only [List.flatMap_cons, List.flatMap_nil, List.append_nil] at hexpand
    have hnul := h.nul_notMem
    rw [hexpand, Piece.expanded]
    simp only [Piece.source, List.mem_append, List.mem_cons, not_or] at hnul ⊢
    exact ⟨⟨hnul.1.1, hlook _⟩, hnul.2⟩

/-- What names stand for behind some settings. -/
def behind (look : Str → Str) (settings : List Text) : Str → Str :=
  settings.foldl (fun look setting => Function.update look setting.1 setting.2) look

/-- Texts that are expanded one after the other, each in what stands in front of it by then. -/
def substituted (look : Str → Str) : List Text → List Text
  | [] => []
  | (path, value) :: texts =>
    let exp := marks.expand look value
    (path, exp) :: substituted (Function.update look path exp) texts

theorem find_insert (vars : StringMap) (path exp : Str) :
    StringMap.find (vars.insert path exp) = Function.update vars.find path exp := by
  funext name
  rw [StringMap.find, Std.ExtTreeMap.getElem?_insert, Function.update_apply]
  by_cases hname : name = path
  · rw [if_pos (by rw [hname]; exact Std.ReflCmp.compare_self), if_pos hname, Option.getD_some]
  · rw [if_neg fun heq => hname (Std.LawfulEqCmp.compare_eq_iff_eq.mp heq).symm, if_neg hname]
    rfl

theorem pass_of_simple {texts : List Text} (htexts : ∀ text ∈ texts, Simple text.2) {vars : StringMap}
    (hvars : ∀ name, nul ∉ vars.find name) :
    ∃ vars', pass (some nul) vars texts = .ok (vars', substituted vars.find texts) ∧
      vars'.find = behind vars.find (substituted vars.find texts) := by
  induction texts generalizing vars with
  | nil => exact ⟨vars, rfl, rfl⟩
  | cons text texts ih =>
      obtain ⟨path, value⟩ := text
      obtain ⟨hvalue, htexts⟩ := List.forall_mem_cons.mp htexts
      have hexp := hvalue.nul_notMem_expand hvars
      have hfind := find_insert vars path (marks.expand vars.find value)
      have hvars' : ∀ name, nul ∉ StringMap.find (vars.insert path (marks.expand vars.find value)) name := by
        intro name
        rw [hfind, Function.update_apply]
        split_ifs
        · exact hexp
        · exact hvars name
      obtain ⟨vars', hpass, hbehind⟩ := ih htexts hvars'
      refine ⟨vars', ?_, ?_⟩
      · rw [pass, hvalue.expandVariables]
        simp only [Except.bind, hpass, cstr_eq_self hexp, hfind]
        rfl
      · rw [hbehind, hfind]
        rfl

/-- **A name stands for the last setting of that path in front**, as it has become, and never for one behind. -/
theorem substituted_append (look : Str → Str) (front back : List Text) :
    substituted look (front ++ back)
      = substituted look front ++ substituted (behind look (substituted look front)) back := by
  induction front generalizing look with
  | nil => rfl
  | cons text front ih =>
      obtain ⟨path, value⟩ := text
      rw [List.cons_append, substituted, ih]
      rfl

/-- **The pass over a configuration** of simple texts comes back, and changes no more than the texts. Each is
expanded in the variables given and the settings in front of it as they have become. -/
theorem performSubstitutions_substituted {setting : Setting} {path : Str}
    (hsetting : ∀ text ∈ setting.texts path, Simple text.2) {vars : StringMap}
    (hvars : ∀ name, nul ∉ vars.find name) :
    ∃ vars' setting', setting.performSubstitutions (some nul) path vars = .ok (vars', setting') ∧
      setting'.shape = setting.shape ∧ setting'.texts path = substituted vars.find (setting.texts path) ∧
      vars'.find = behind vars.find (setting'.texts path) ∧
      ∀ front name value back, setting.texts path = front ++ (name, value) :: back →
        let look := behind vars.find (substituted vars.find front)
        setting'.texts path
          = substituted vars.find front ++ substituted look ((name, value) :: back) := by
  obtain ⟨vars', hpass, hbehind⟩ := pass_of_simple hsetting hvars
  rw [← Setting.performSubstitutions_texts] at hpass
  cases hresult : setting.performSubstitutions (some nul) path vars with
  | error failure =>
      rw [hresult] at hpass
      cases hpass
  | ok outcome =>
      obtain ⟨vars₁, setting'⟩ := outcome
      rw [hresult] at hpass
      obtain ⟨rfl, htexts⟩ := Prod.mk.inj (Except.ok.inj hpass)
      have hshape := Setting.shape_of_performSubstitutions hresult
      refine ⟨vars₁, setting', rfl, hshape, htexts, by rw [htexts, hbehind], ?_⟩
      intro front name value back hsplit
      rw [htexts, hsplit]
      exact substituted_append vars.find front ((name, value) :: back)

def siteFile : Setting :=
  .aggregate
    (.cons (some (lit "host")) (.text (lit "h"))
      (.cons (some (lit "urls"))
        (.aggregate (.cons none (.text (lit "//$(host)/")) (.cons none (.text (lit "$(port)")) .nil)))
        (.cons (some (lit "port")) (.text (lit "80")) .nil)))

theorem performSubstitutions_siteFile : ∃ vars' setting',
    siteFile.performSubstitutions (some nul) [] ∅ = .ok (vars', setting') ∧
      setting'.texts [] = [(lit "host", lit "h"), (lit "urls.[0]", lit "//h/"), (lit "urls.[1]", []),
        (lit "port", lit "80")] := by
  have hhost : Simple (lit "h") := ⟨by decide, .inl (by decide)⟩
  have hport : Simple (lit "80") := ⟨by decide, .inl (by decide)⟩
  have hfirst : Simple (lit "//$(host)/") :=
    ⟨by decide, .inr ⟨⟨lit "//", lit "host"⟩, lit "/", ⟨by decide, by decide⟩, by decide, by decide, by decide⟩⟩
  have hsecond : Simple (lit "$(port)") :=
    ⟨by decide, .inr ⟨⟨[], lit "port"⟩, [], ⟨by decide, by decide⟩, by decide, by decide, by decide⟩⟩
  have hsimple : ∀ text ∈ siteFile.texts [], Simple text.2 := by
    have hvalues : (siteFile.texts []).map Prod.snd = [lit "h", lit "//$(host)/", lit "$(port)", lit "80"] := rfl
    intro text htext
    have hmem : text.2 ∈ (siteFile.texts []).map Prod.snd := List.mem_map_of_mem htext
    rw [hvalues] at hmem
    simp only [List.mem_cons, List.not_mem_nil, or_false] at hmem
    rcases hmem with h | h | h | h
    · exact h ▸ hhost
    · exact h ▸ hfirst
    · exact h ▸ hsecond
    · exact h ▸ hport
  have hvars : ∀ name, nul ∉ StringMap.find ∅ name := by simp [StringMap.find]
  obtain ⟨vars', setting', hresult, -, htexts, -⟩ := performSubstitutions_substituted hsimple hvars
  refine ⟨vars', setting', hresult, ?_⟩
  rw [htexts]
  decide +kernel

end Rikitiki.Configuration
