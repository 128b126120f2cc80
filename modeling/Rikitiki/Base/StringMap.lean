import Rikitiki.Base.Bytes
import Std.Data.ExtTreeMap

/-!
# A map of texts

A `std::map<std::string, std::string>` is read with `operator[]`, which enters a key that is not there with an
empty text.
-/

namespace Rikitiki

theorem distinct_of_nodup {β : Type} {entries : List (Str × β)} (h : (entries.map Prod.fst).Nodup) :
    entries.Pairwise fun a b => ¬ compare a.1 b.1 = .eq := by
  refine (List.pairwise_map.mp h).imp ?_
  intro a b hne heq
  exact hne (Std.LawfulEqCmp.compare_eq_iff_eq.mp heq)

abbrev StringMap := Std.ExtTreeMap Str Str compare

namespace StringMap

/-- `map[key]` -/
def lookup (map : StringMap) (key : Str) : Str × StringMap :=
  match map[key]? with
  | some text => (text, map)
  | none => ([], map.insert key [])

def find (map : StringMap) (key : Str) : Str := (map[key]?).getD []

theorem lookup_fst (map : StringMap) (key : Str) : (map.lookup key).1 = map.find key := by
  rw [lookup, find]
  split
  · rename_i text hentry
    rw [hentry, Option.getD_some]
  · rename_i hentry
    rw [hentry, Option.getD_none]

/-- **A look-up changes no answer.** -/
theorem find_lookup (map : StringMap) (key other : Str) : (map.lookup key).2.find other = map.find other := by
  rw [lookup]
  split
  · rfl
  · rename_i hentry
    rw [find, find, Std.ExtTreeMap.getElem?_insert]
    split
    · rename_i heq
      obtain rfl := Std.LawfulEqCmp.compare_eq_iff_eq.mp heq
      rw [hentry, Option.getD_some, Option.getD_none]
    · rfl

end StringMap

end Rikitiki
