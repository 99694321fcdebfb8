import Bahasa.Highlight

namespace Bahasa.Highlight

/-- To hold of every text, a property has to hold of single lines and of lines in front of a text
that has it. -/
theorem lines_induction {P : String → Prop} (single : ∀ s, '\n' ∉ s.toList → P s)
    (more : ∀ s₁ s₂, '\n' ∉ s₁.toList → P s₂ → P (s₁ ++ "\n" ++ s₂)) (s : String) : P s := by
  induction hn : s.toList.length using Nat.strongRecOn generalizing s with
  | ind n ih =>
    by_cases hs : '\n' ∈ s.toList
    · obtain ⟨cs, ds, hsplit, hcs⟩ := List.eq_append_cons_of_mem hs
      have hlength : (String.ofList ds).toList.length < n := by
        rw [← hn, hsplit, String.toList_ofList, List.length_append, List.length_cons]
        omega
      have hjoin : s = String.ofList cs ++ "\n" ++ String.ofList ds := by
        rw [← String.toList_inj, hsplit]
        simp
      rw [hjoin]
      exact more _ _ (by rwa [String.toList_ofList]) (ih _ hlength _ rfl)
    · exact single s hs

theorem splitLines_single {s : String} (h : '\n' ∉ s.toList) : splitLines s = [s] := by
  rw [splitLines, List.splitOn_eq_singleton h, List.map_singleton, String.ofList_toList]

theorem splitLines_more {s₁ : String} (s₂ : String) (h : '\n' ∉ s₁.toList) :
    splitLines (s₁ ++ "\n" ++ s₂) = s₁ :: splitLines s₂ := by
  have hlist : (s₁ ++ "\n" ++ s₂).toList = s₁.toList ++ '\n' :: s₂.toList := by simp
  rw [splitLines, hlist, List.splitOn_append_cons_self_of_not_mem h, List.map_cons,
    String.ofList_toList, splitLines]

theorem intercalate_splitLines (text : String) : "\n".intercalate (splitLines text) = text := by
  have hlines : (splitLines text).map String.toList = text.toList.splitOn '\n' := by
    simp [splitLines, Function.comp_def]
  rw [← String.toList_inj, String.toList_intercalate, hlines]
  exact List.intercalate_splitOn '\n'

theorem not_mem_of_mem_splitLines {text line : String} (h : line ∈ splitLines text) :
    '\n' ∉ line.toList := by
  induction text using lines_induction with
  | single s hs =>
    rw [splitLines_single hs] at h
    obtain rfl := List.mem_singleton.mp h
    exact hs
  | more s₁ s₂ hs ih =>
    rw [splitLines_more s₂ hs] at h
    obtain rfl | h := List.mem_cons.mp h
    · exact hs
    · exact ih h

theorem lineAt?_eq {text content : String} {number : Nat}
    (h : (splitLines text)[number]? = some content) :
    lineAt? text number = some (line content) := by
  change some (((splitLines text)[number]?.map line).getD [⟨"", ""⟩]) = _
  rw [h]
  rfl

theorem lineAt?_eq_none_iff {text : String} {number : Int} :
    lineAt? text number = none ↔ number < -(splitLines text).length := by
  cases number with
  | ofNat n =>
    simp only [lineAt?, Int.ofNat_eq_natCast, reduceCtorEq, false_iff]
    omega
  | negSucc n =>
    simp only [lineAt?, Option.map_eq_none_iff, List.getElem?_eq_none_iff, List.length_reverse]
    omega

theorem lineAt?_sub {text : String} {number : Nat} (h : number < (splitLines text).length) :
    lineAt? text (number - (splitLines text).length) = lineAt? text number := by
  obtain ⟨n, hn⟩ : ∃ n, (splitLines text).length = number + n + 1 :=
    ⟨(splitLines text).length - number - 1, by omega⟩
  have hback : (number : Int) - (splitLines text).length = .negSucc n := by omega
  rw [hback, lineAt?_eq (List.getElem?_eq_getElem h), lineAt?,
    List.getElem?_reverse (by omega), show (splitLines text).length - 1 - n = number by omega,
    List.getElem?_eq_getElem h]
  rfl

end Bahasa.Highlight
