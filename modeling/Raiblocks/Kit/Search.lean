import Mathlib.Data.Finset.Card
import Mathlib.Data.List.Infix
import Mathlib.Logic.Relation
import Mathlib.Order.Lattice

set_option autoImplicit false

namespace Kit

-- A depth-first search through a set that is its own visited test: an item leaves `wanted` when it goes on the
-- stack, and is emitted when nothing it names is wanted any more. The stack is listed from its top.
structure Search (H : Type) where
  wanted : Finset H
  stack : List H
  emitted : List H

namespace Search

section Steps

-- What an item names, or nothing where it cannot be read.
variable {H : Type} [LinearOrder H] (names : H → Option (List H))

def Names (x d : H) : Prop := ∃ named, names x = some named ∧ d ∈ named

inductive Step : Search H → Search H → Prop where
  | pick (q : Search H) (root : H) (idle : q.stack = []) (member : root ∈ q.wanted) (least : ∀ x ∈ q.wanted, root ≤ x)
      (readable : names root ≠ none) : Step q ⟨q.wanted.erase root, [root], q.emitted⟩
  | skip (q : Search H) (top d : H) (rest : List H) (above : q.stack = top :: rest) (named : Names names top d) (member : d ∈ q.wanted)
      (unread : names d = none) : Step q ⟨q.wanted.erase d, q.stack, q.emitted⟩
  | dive (q : Search H) (top d : H) (rest : List H) (above : q.stack = top :: rest) (named : Names names top d) (member : d ∈ q.wanted)
      (readable : names d ≠ none) : Step q ⟨q.wanted.erase d, d :: q.stack, q.emitted⟩
  | emit (q : Search H) (top : H) (rest : List H) (above : q.stack = top :: rest) (clear : ∀ d, Names names top d → d ∉ q.wanted) :
      Step q ⟨q.wanted, rest, q.emitted ++ [top]⟩

def Runs : Search H → Search H → Prop := Relation.ReflTransGen (Step names)

def begin (start : Finset H) : Search H := ⟨start, [], []⟩

def Leads (start : Finset H) : H → H → Prop := Relation.ReflTransGen fun x y => y ∈ start ∧ Names names x y

-- Where the items of `start` can be. Only one that cannot be read is in none of the three places.
structure Sound (rank : H → Nat) (start : Finset H) (q : Search H) : Prop where
  within : q.wanted ⊆ start
  placed : ∀ x ∈ q.stack ++ q.emitted, x ∈ start ∧ x ∉ q.wanted ∧ names x ≠ none
  once : (q.stack ++ q.emitted).Nodup
  kept : ∀ x ∈ start, x ∉ q.wanted → names x ≠ none → x ∈ q.stack ++ q.emitted
  rising : q.stack.Pairwise fun above below => rank above < rank below
  closed : ∀ x ∈ q.emitted, ∀ d, Names names x d → d ∉ q.wanted
  ordered : ∀ before x, before ++ [x] <+: q.emitted → ∀ d, Names names x d → d ∈ start → names d ≠ none → d ∈ before

-- Every item that is taken is led to from a root that is not above it.
structure Rooted (start : Finset H) (q : Search H) : Prop where
  within : q.wanted ⊆ start
  taken : ∀ x ∈ start, x ∉ q.wanted → ∃ root ∈ start, root ≤ x ∧ Leads names start root x ∧ (names x = none → root < x)
  base : ∀ x ∈ q.stack, ∃ root ∈ start, root ∉ q.wanted ∧ Leads names start root x ∧ ∀ w ∈ q.wanted, root ≤ w

variable {names} {rank : H → Nat} (drops : ∀ x d, Names names x d → names d ≠ none → rank d < rank x)
  {start : Finset H} {q r : Search H}

omit [LinearOrder H] in
theorem sound_begin : Sound names rank start (begin start) where
  within := Finset.Subset.refl start
  placed := by simp [begin]
  once := List.nodup_nil
  kept x member unwanted _ := absurd member unwanted
  rising := List.Pairwise.nil
  closed := by simp [begin]
  ordered before x cut := by simp [begin] at cut

theorem sound_push (sound : Sound names rank start q) (x : H) (member : x ∈ q.wanted) (readable : names x ≠ none)
    (low : ∀ below ∈ q.stack, rank x < rank below) : Sound names rank start ⟨q.wanted.erase x, x :: q.stack, q.emitted⟩ where
  within := (Finset.erase_subset x q.wanted).trans sound.within
  placed := by
    intro y listed
    obtain rfl | listed := List.mem_cons.mp listed
    · exact ⟨sound.within member, Finset.notMem_erase y q.wanted, readable⟩
    · obtain ⟨inside, unwanted, read⟩ := sound.placed y listed
      exact ⟨inside, fun still => unwanted (Finset.mem_of_mem_erase still), read⟩
  once := List.nodup_cons.mpr ⟨fun listed => (sound.placed x listed).2.1 member, sound.once⟩
  kept := by
    intro y inside unwanted read
    by_cases same : y = x
    · exact same ▸ List.mem_cons_self
    · exact List.mem_cons_of_mem x (sound.kept y inside (fun still => unwanted (Finset.mem_erase.mpr ⟨same, still⟩)) read)
  rising := List.pairwise_cons.mpr ⟨low, sound.rising⟩
  closed y listed d named still := sound.closed y listed d named (Finset.mem_of_mem_erase still)
  ordered := sound.ordered

theorem sound_skip (sound : Sound names rank start q) (x : H) (unread : names x = none) :
    Sound names rank start ⟨q.wanted.erase x, q.stack, q.emitted⟩ where
  within := (Finset.erase_subset x q.wanted).trans sound.within
  placed := by
    intro y listed
    obtain ⟨inside, unwanted, read⟩ := sound.placed y listed
    exact ⟨inside, fun still => unwanted (Finset.mem_of_mem_erase still), read⟩
  once := sound.once
  kept := by
    intro y inside unwanted read
    have other : y ≠ x := fun same => read (same ▸ unread)
    exact sound.kept y inside (fun still => unwanted (Finset.mem_erase.mpr ⟨other, still⟩)) read
  rising := sound.rising
  closed y listed d named still := sound.closed y listed d named (Finset.mem_of_mem_erase still)
  ordered := sound.ordered

omit [LinearOrder H] in
include drops in
-- What the top names was taken before, and it is not on the stack, where everything has a higher rank.
theorem sound_emit (sound : Sound names rank start q) (top : H) (rest : List H) (above : q.stack = top :: rest)
    (clear : ∀ d, Names names top d → d ∉ q.wanted) : Sound names rank start ⟨q.wanted, rest, q.emitted ++ [top]⟩ := by
  obtain ⟨within, placed, once, kept, rising, closed, ordered⟩ := sound
  rw [above] at placed once kept rising
  have moved : ((rest ++ (q.emitted ++ [top])).Perm (top :: rest ++ q.emitted)) := by
    rw [← List.append_assoc]
    exact List.perm_append_singleton top (rest ++ q.emitted)
  refine ⟨within, fun x listed => placed x (moved.mem_iff.mp listed), moved.nodup_iff.mpr once,
    fun x inside unwanted read => moved.mem_iff.mpr (kept x inside unwanted read), (List.pairwise_cons.mp rising).2, ?_, ?_⟩
  · intro x listed d named
    obtain earlier | last := List.mem_append.mp listed
    · exact closed x earlier d named
    · rw [List.mem_singleton.mp last] at named
      exact clear d named
  · intro before x cut d named inside read
    obtain whole | cut := List.prefix_concat_iff.mp cut
    · obtain ⟨rfl, last⟩ := List.append_inj' whole rfl
      obtain rfl : x = top := List.singleton_inj.mp last
      have lower := drops x d named read
      obtain stacked | emitted := List.mem_append.mp (kept d inside (clear d named) read)
      · obtain rfl | deeper := List.mem_cons.mp stacked
        · exact absurd lower (Nat.lt_irrefl _)
        · exact absurd ((List.pairwise_cons.mp rising).1 d deeper) (Nat.lt_asymm lower)
      · exact emitted
    · exact ordered before x cut d named inside read

include drops in
theorem sound_step (sound : Sound names rank start q) (step : Step names q r) : Sound names rank start r := by
  cases step with
  | pick root idle member least readable =>
      have pushed := sound_push sound root member readable (by simp [idle])
      rwa [idle] at pushed
  | skip top d rest above named member unread => exact sound_skip sound d unread
  | dive top d rest above named member readable =>
      refine sound_push sound d member readable fun below stacked => ?_
      have lower := drops top d named readable
      have rising := sound.rising
      rw [above] at stacked rising
      obtain rfl | deeper := List.mem_cons.mp stacked
      · exact lower
      · exact lower.trans ((List.pairwise_cons.mp rising).1 below deeper)
  | emit top rest above clear => exact sound_emit drops sound top rest above clear

include drops in
theorem sound_runs (sound : Sound names rank start q) (runs : Runs names q r) : Sound names rank start r := by
  induction runs with
  | refl => exact sound
  | tail _ step ih => exact sound_step drops ih step

theorem rooted_begin : Rooted names start (begin start) where
  within := Finset.Subset.refl start
  taken x member unwanted := absurd member unwanted
  base := by simp [begin]

theorem rooted_take (rooted : Rooted names start q) (d : H)
    (root : H) (inside : root ∈ start) (behind : root ≤ d) (leads : Leads names start root d)
    (unread : names d = none → root < d) (x : H) (known : x ∈ start) (unwanted : x ∉ q.wanted.erase d) :
    ∃ root ∈ start, root ≤ x ∧ Leads names start root x ∧ (names x = none → root < x) := by
  by_cases same : x = d
  · exact ⟨root, inside, same ▸ behind, same ▸ leads, same ▸ unread⟩
  · exact rooted.taken x known fun still => unwanted (Finset.mem_erase.mpr ⟨same, still⟩)

theorem rooted_step (rooted : Rooted names start q) (step : Step names q r) : Rooted names start r := by
  have shrinks : ∀ d, q.wanted.erase d ⊆ start := fun d => (Finset.erase_subset d q.wanted).trans rooted.within
  cases step with
  | pick root idle member least readable =>
      refine ⟨shrinks root, ?_, fun x stacked => ?_⟩
      · exact rooted_take rooted root root (rooted.within member) le_rfl .refl fun unread => absurd unread readable
      · rw [List.mem_singleton.mp stacked]
        exact ⟨root, rooted.within member, Finset.notMem_erase root _, .refl, fun w still => least w (Finset.mem_of_mem_erase still)⟩
  | skip top d rest above named member unread =>
      obtain ⟨root, inside, behind, leads, lowest⟩ := rooted.base top (above ▸ List.mem_cons_self)
      have under : root < d := lt_of_le_of_ne (lowest d member) fun same => behind (same ▸ member)
      refine ⟨shrinks d, ?_, fun x stacked => ?_⟩
      · exact rooted_take rooted d root inside under.le (leads.tail ⟨rooted.within member, named⟩) fun _ => under
      · obtain ⟨root, inside, behind, leads, lowest⟩ := rooted.base x stacked
        exact ⟨root, inside, fun still => behind (Finset.mem_of_mem_erase still), leads, fun w still =>
          lowest w (Finset.mem_of_mem_erase still)⟩
  | dive top d rest above named member readable =>
      obtain ⟨root, inside, behind, leads, lowest⟩ := rooted.base top (above ▸ List.mem_cons_self)
      have onward := leads.tail ⟨rooted.within member, named⟩
      refine ⟨shrinks d, ?_, fun x stacked => ?_⟩
      · exact rooted_take rooted d root inside (lowest d member) onward fun unread => absurd unread readable
      · obtain rfl | deeper := List.mem_cons.mp stacked
        · exact ⟨root, inside, fun still => behind (Finset.mem_of_mem_erase still), onward, fun w still =>
            lowest w (Finset.mem_of_mem_erase still)⟩
        · obtain ⟨root, inside, behind, leads, lowest⟩ := rooted.base x deeper
          exact ⟨root, inside, fun still => behind (Finset.mem_of_mem_erase still), leads, fun w still =>
            lowest w (Finset.mem_of_mem_erase still)⟩
  | emit top rest above clear =>
    exact ⟨rooted.within, rooted.taken, fun x stacked => rooted.base x (above ▸ List.mem_cons_of_mem top stacked)⟩

theorem rooted_runs (runs : Runs names (begin start) q) : Rooted names start q := by
  induction runs with
  | refl => exact rooted_begin
  | tail _ step ih => exact rooted_step ih step

omit [LinearOrder H] in
theorem led_unwanted (sound : Sound names rank start q) (idle : q.stack = []) (root x : H) (inside : root ∈ start)
    (behind : root ∉ q.wanted) (leads : Leads names start root x) : x ∈ start ∧ x ∉ q.wanted := by
  induction leads with
  | refl => exact ⟨inside, behind⟩
  | tail _ named ih =>
      obtain ⟨known, list, read, member⟩ := named
      have emitted := sound.kept _ ih.1 ih.2 (by simp [read])
      rw [idle, List.nil_append] at emitted
      exact ⟨known, sound.closed _ emitted _ ⟨list, read, member⟩⟩

theorem root_readable (sound : Sound names rank start q) (idle : q.stack = []) (root : H) (member : root ∈ q.wanted)
    (least : ∀ x ∈ q.wanted, root ≤ x) (led : names root = none → ∃ x ∈ start, x < root ∧ Leads names start x root) :
    names root ≠ none := by
  intro unread
  obtain ⟨x, inside, lower, leads⟩ := led unread
  have behind : x ∉ q.wanted := fun still => absurd (least x still) (not_le.mpr lower)
  exact (led_unwanted sound idle x root inside behind leads).2 member

theorem runs_blocked (root : H) (member : root ∈ start) (least : ∀ x ∈ start, root ≤ x) (unread : names root = none)
    (runs : Runs names (begin start) q) : q = begin start := by
  induction runs with
  | refl => rfl
  | tail _ step ih =>
      subst ih
      cases step with
      | pick other idle chosen lowest readable =>
          have same : other = root := le_antisymm (lowest root member) (least other chosen)
          exact absurd (same ▸ unread) readable
      | skip top d rest above => cases above
      | dive top d rest above => cases above
      | emit top rest above => cases above

end Steps

end Search

end Kit
