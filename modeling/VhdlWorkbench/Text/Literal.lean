/-!
Literals between quotes, and block comments; a piece that is not closed is nothing.
-/

namespace VhdlWorkbench.Text

/-- The rest of a literal with its closing quote, and the characters behind it. -/
def literal? (quote : Char) : List Char → Option (List Char × List Char)
  | [] => none
  | '\\' :: c :: rest => (literal? quote rest).map fun (body, rest) => ('\\' :: c :: body, rest)
  | c :: rest =>
    if c == quote then some ([c], rest)
    else if c == '\\' then none
    else (literal? quote rest).map fun (body, rest) => (c :: body, rest)

/-- The rest of a block comment with its end mark, and the characters behind it. -/
def block? : List Char → Option (List Char × List Char)
  | [] => none
  | '*' :: '/' :: rest => some (['*', '/'], rest)
  | c :: rest => (block? rest).map fun (body, rest) => (c :: body, rest)

theorem literal?_append {quote : Char} {cs body rest : List Char}
    (h : literal? quote cs = some (body, rest)) : cs = body ++ rest := by
  fun_induction literal? quote cs generalizing body rest with
  | case1 => simp at h
  | case2 c tail ih =>
    obtain ⟨⟨b, r⟩, hb, he⟩ := Option.map_eq_some_iff.1 h
    simp only [Prod.mk.injEq] at he
    simp [← he.1, ← he.2, ih hb]
  | case3 c tail hc =>
    simp only [Option.some.injEq, Prod.mk.injEq] at h
    simp [← h.1, ← h.2]
  | case4 => simp at h
  | case5 c tail _ _ _ ih =>
    obtain ⟨⟨b, r⟩, hb, he⟩ := Option.map_eq_some_iff.1 h
    simp only [Prod.mk.injEq] at he
    simp [← he.1, ← he.2, ih hb]

theorem block?_append {cs body rest : List Char} (h : block? cs = some (body, rest)) :
    cs = body ++ rest := by
  fun_induction block? cs generalizing body rest with
  | case1 => simp at h
  | case2 tail =>
    simp only [Option.some.injEq, Prod.mk.injEq] at h
    simp [← h.1, ← h.2]
  | case3 c tail _ ih =>
    obtain ⟨⟨b, r⟩, hb, he⟩ := Option.map_eq_some_iff.1 h
    simp only [Prod.mk.injEq] at he
    simp [← he.1, ← he.2, ih hb]

theorem literal?_length {quote : Char} {cs body rest : List Char}
    (h : literal? quote cs = some (body, rest)) : rest.length ≤ cs.length := by
  simp [literal?_append h]

theorem block?_length {cs body rest : List Char} (h : block? cs = some (body, rest)) :
    rest.length ≤ cs.length := by
  simp [block?_append h]

theorem length_dropWhile_le (p : Char → Bool) (cs : List Char) :
    (cs.dropWhile p).length ≤ cs.length :=
  (List.dropWhile_suffix p).length_le

end VhdlWorkbench.Text
