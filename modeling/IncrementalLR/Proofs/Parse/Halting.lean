import IncrementalLR.Proofs.Parse.Climbing
import Mathlib.Data.Fintype.Card

namespace IncrementalLR

-- Stacks along the edges of a graph, with the symbols that they spell from the
-- top to the bottom.
inductive Path (graph : StateGraph) : List Nat → List Slot → Prop where
  | nil : Path graph [] []
  | symbol {spelled : List Nat} {slots : List Slot} {symbol target : Nat} {copy : Snapshot} :
      Path graph spelled slots → (symbol, target) ∈ graph.edgesFrom (Slot.top slots) →
      Path graph (symbol :: spelled) (⟨target, some symbol, copy⟩ :: slots)
  | passed {spelled : List Nat} {slots : List Slot} {copy : Snapshot} :
      Path graph spelled slots → Path graph spelled (⟨Slot.top slots, none, copy⟩ :: slots)

namespace Path

variable {grammar : Grammar} {graph : StateGraph} {spelled : List Nat} {slots : List Slot}
  {item : Item} {symbol terminal : Nat}

theorem top_nil (hp : Path graph [] slots) : Slot.top slots = 0 := by
  generalize hn : ([] : List Nat) = whole at hp
  induction hp with
  | nil => rfl
  | symbol _ _ _ => cases hn
  | passed _ ih => exact ih hn

theorem uncons (hp : Path graph (symbol :: spelled) slots) :
    ∃ below, Path graph spelled below ∧ (symbol, Slot.top slots) ∈ graph.edgesFrom (Slot.top below) := by
  generalize hs : symbol :: spelled = whole at hp
  induction hp with
  | nil => cases hs
  | symbol hp he _ =>
      cases hs
      exact ⟨_, hp, he⟩
  | passed _ ih => exact ih hs

theorem hasItem (hf : Faithful grammar graph) (hp : Path graph spelled slots)
    (hs : Spells grammar.toRules spelled item) : (graph.state (Slot.top slots)).HasItem item := by
  induction hs generalizing slots with
  | start =>
      rw [hp.top_nil]
      exact (hf.start_items .start).mpr (.given rfl)
  | advanced _ hn ih =>
      obtain ⟨below, hbelow, he⟩ := hp.uncons
      exact (hf.edge_items _ _ _ he _).mpr (.given ⟨_, ih hbelow, hn, rfl⟩)
  | brought _ hb ih => exact hf.items_closed _ _ _ (ih hp) hb

theorem sees (hf : Faithful grammar graph) (hm : graph.mode ≠ .lr0) (hp : Path graph spelled slots)
    (hv : Valid grammar.toRules spelled item terminal) :
    (graph.state (Slot.top slots)).Sees item terminal := by
  induction hv generalizing slots with
  | start =>
      rw [hp.top_nil]
      exact hf.start_sees hm
  | advanced _ hn ih =>
      obtain ⟨below, hbelow, he⟩ := hp.uncons
      exact hf.edge_sees _ _ _ _ _ he (ih hbelow) hn
  | begun hs hb hbegins => exact hf.begun_sees hm _ _ _ _ (hp.hasItem hf hs) hb hbegins
  | passed _ hb hv ih => exact hf.passed_sees hm _ _ _ _ (ih hp) hb hv

theorem exists_of_spells (hf : Faithful grammar graph) (hs : Spells grammar.toRules spelled item) :
    ∃ slots, Path graph spelled slots := by
  induction hs with
  | start => exact ⟨[], .nil⟩
  | advanced hs hn ih =>
      obtain ⟨slots, hp⟩ := ih
      obtain ⟨target, he⟩ := hf.edge_exists _ _ _ (hp.hasItem hf hs) hn
      exact ⟨⟨target, some _, default⟩ :: slots, .symbol hp he⟩
  | brought _ _ ih => exact ih

-- Where the items of the state on top come from.
theorem origin (hf : Faithful grammar graph) (hp : Path graph spelled slots)
    (hi : (graph.state (Slot.top slots)).HasItem item) :
    item = .start ∧ Slot.top slots = 0 ∨
      (∃ source, (graph.state (Slot.top slots)).HasItem source ∧ source.Brings grammar.toRules item) ∨
      0 < item.dot := by
  have hreaches : ∀ {given : Item → Prop} {item : Item}, Reaches grammar.toRules given item →
      given item ∨ ∃ source, Reaches grammar.toRules given source ∧ source.Brings grammar.toRules item := by
    intro given item hr
    cases hr with
    | given h => exact Or.inl h
    | brought hr hb => exact Or.inr ⟨_, hr, hb⟩
  induction hp with
  | nil =>
      rcases hreaches ((hf.start_items item).mp hi) with rfl | ⟨source, hr, hb⟩
      · exact Or.inl ⟨rfl, rfl⟩
      · exact Or.inr (Or.inl ⟨source, (hf.start_items source).mpr hr, hb⟩)
  | symbol _ he _ =>
      rcases hreaches ((hf.edge_items _ _ _ he item).mp hi) with ⟨source, -, -, rfl⟩ | ⟨source, hr, hb⟩
      · exact Or.inr (Or.inr (Nat.succ_pos _))
      · exact Or.inr (Or.inl ⟨source, (hf.edge_items _ _ _ he source).mpr hr, hb⟩)
  | passed _ ih => exact ih hi

theorem source (hf : Faithful grammar graph) (hp : Path graph (symbol :: spelled) slots)
    (hi : (graph.state (Slot.top slots)).HasItem item) (hdot : 0 < item.dot) :
    ∃ below source, Path graph spelled below ∧ (symbol, Slot.top slots) ∈ graph.edgesFrom (Slot.top below) ∧
      (graph.state (Slot.top below)).HasItem source ∧ source.next? grammar.toRules = some symbol ∧
      item = source.advance := by
  obtain ⟨below, hbelow, he⟩ := hp.uncons
  cases (hf.edge_items _ _ _ he item).mp hi with
  | given h =>
      obtain ⟨source, hs, hn, rfl⟩ := h
      exact ⟨below, source, hbelow, he, hs, hn, rfl⟩
  | brought _ hb =>
      obtain ⟨-, -, -, hzero⟩ := hb
      omega

theorem dot_le (hf : Faithful grammar graph) (hp : Path graph spelled slots)
    (hi : (graph.state (Slot.top slots)).HasItem item) :
    item.dot ≤ (grammar.production item.production).right.length := by
  rcases hp.origin hf hi with ⟨rfl, -⟩ | ⟨source, -, -, -, -, hdot⟩ | hdot
  · exact Nat.zero_le _
  · omega
  · cases spelled with
    | nil =>
        rw [hp.top_nil] at hi
        rw [hf.dot_of_start hi]
        exact Nat.zero_le _
    | cons symbol spelled =>
        obtain ⟨below, source, -, -, -, hn, rfl⟩ := hp.source hf hi hdot
        exact (List.getElem?_eq_some_iff.mp hn).1

-- What an item has moved over lies on top of the stack, and its beginning is in
-- the state below.
theorem pop (hf : Faithful grammar graph) (hp : Path graph spelled slots) {production dot : Nat}
    (hi : (graph.state (Slot.top slots)).HasItem ⟨production, dot⟩) (taken : List Snapshot) :
    ∃ children below rest, Slot.pop taken dot slots = some (children, below) ∧
      Path graph rest below ∧ (graph.state (Slot.top below)).HasItem ⟨production, 0⟩ ∧
      spelled = ((grammar.production production).right.take dot).reverse ++ rest := by
  induction hp generalizing dot taken with
  | nil =>
      have hzero : dot = 0 := hf.dot_of_start hi
      subst hzero
      exact ⟨taken, [], [], by simp [Slot.pop], .nil, hi, rfl⟩
  | @symbol spelled slots symbol target copy hp he ih =>
      cases dot with
      | zero => exact ⟨taken, _, _, by simp [Slot.pop], .symbol hp he, hi, by simp⟩
      | succ dot =>
          cases (hf.edge_items _ _ _ he _).mp hi with
          | given h =>
              obtain ⟨⟨production', dot'⟩, hs, hn, hadvance⟩ := h
              obtain ⟨rfl, rfl⟩ : production = production' ∧ dot = dot' := by
                simpa [Item.advance] using hadvance
              obtain ⟨children, below, rest, hpop, hbelow, hi', rfl⟩ := ih hs (copy :: taken)
              refine ⟨children, below, rest, ?_, hbelow, hi', ?_⟩
              · rw [Slot.pop, Option.isSome_some, if_pos rfl]
                exact hpop
              · have hn : (grammar.production production).right[dot]? = some symbol := hn
                rw [List.take_add_one, hn]
                simp
          | brought _ hb =>
              obtain ⟨-, -, -, hzero⟩ := hb
              cases hzero
  | @passed spelled slots copy hp ih =>
      cases dot with
      | zero => exact ⟨taken, _, _, by simp [Slot.pop], .passed hp, hi, by simp⟩
      | succ dot =>
          obtain ⟨children, below, rest, hpop, hbelow, hi', hspelled⟩ := ih hi (copy :: taken)
          refine ⟨children, below, rest, ?_, hbelow, hi', hspelled⟩
          rw [Slot.pop, Option.isSome_none, if_neg Bool.false_ne_true]
          exact hpop

-- A reduction that a table asks for can be made on a stack along the edges of its graph.
theorem reduce (hw : grammar.toRules.WellFormed) (hf : Faithful grammar graph) (hp : Path graph spelled slots)
    {leaf : Leaf} {production : Nat}
    (haction : Machine.action? (.build graph grammar) slots leaf = some (.reduce production)) :
    ∃ left rest after, (grammar.production production).left = some left ∧
      spelled = (grammar.production production).right.reverse ++ rest ∧
      Machine.reduce (.build graph grammar) production slots = some after ∧ Path graph (left :: rest) after := by
  obtain ⟨terminal, -, haction⟩ := Option.bind_eq_some_iff.mp haction
  generalize hsame : Action.reduce production = action at haction
  cases candidate_of_action? haction with
  | accept => cases hsame
  | shift => cases hsame
  | goto => cases hsame
  | @reduce item terminal ha hfinal hne =>
      obtain rfl := Action.reduce.inj hsame
      obtain ⟨production, dot⟩ := item
      have hle : (grammar.production production).right.length ≤ dot := by
        simpa [Item.isFinal] using hfinal
      obtain rfl : dot = (grammar.production production).right.length :=
        Nat.le_antisymm (hp.dot_le hf ha.1) hle
      obtain ⟨children, below, rest, hpop, hbelow, hi, hspelled⟩ := hp.pop hf ha.1 []
      rw [List.take_length] at hspelled
      obtain ⟨left, hleft, target, he⟩ : ∃ left, (grammar.production production).left = some left ∧
          ∃ target, (left, target) ∈ graph.edgesFrom (Slot.top below) := by
        rcases hbelow.origin hf hi with ⟨hstart, -⟩ | ⟨source, hsource, left, hn, hleft, -⟩ | hdot
        · exact absurd (congrArg Item.production hstart) hne
        · exact ⟨left, hleft, hf.edge_exists _ _ _ hsource hn⟩
        · cases hdot
      have hgoto := goto?_of_edge hw hf he (hw.left_spec hleft).2
      have hreduce : Machine.reduce (.build graph grammar) production slots =
          some (⟨target, some left, .node (grammar.symbol left) "" children⟩ :: below) := by
        simp only [Machine.reduce, show (SyntaxTable.build graph grammar).grammar = grammar from rfl, hpop, hleft,
          hgoto, Option.map_some]
      exact ⟨left, rest, _, hleft, hspelled, hreduce, .symbol hbelow he⟩

end Path

section Cycles

variable {grammar : Grammar} {graph : StateGraph} {terminal symbol : Nat} {item : Item}
  {spelled : List Nat}

-- Whether a symbol can be reduced to a nonterminal with nothing else.
def Lifts (rules : Rules) (symbol nonterminal : Nat) : Prop :=
  ∃ production rest, (rules.production production).left = some nonterminal ∧
    (rules.production production).right = symbol :: rest ∧ Vanishes rules rest

theorem Valid.finish {rules : Rules} (hw : rules.WellFormed)
    (hv : Valid rules spelled item terminal) (hp : item.production = startProduction) :
    terminal = finishId := by
  have hnot : ∀ {source other : Item}, source.Brings rules other → other.production ≠ startProduction := by
    intro source other hb he
    obtain ⟨next, -, hleft, -⟩ := hb
    rw [he, hw.start_left] at hleft
    cases hleft
  induction hv with
  | start => rfl
  | advanced _ _ ih => exact ih hp
  | begun _ hb _ => exact absurd hp (hnot hb)
  | passed _ hb _ _ => exact absurd hp (hnot hb)

theorem Valid.unadvance {rules : Rules} {production : Nat}
    (hv : Valid rules spelled ⟨production, 1⟩ terminal) :
    ∃ spelled, Valid rules spelled ⟨production, 0⟩ terminal := by
  generalize hi : (⟨production, 1⟩ : Item) = item at hv
  cases hv with
  | start => cases hi
  | @advanced spelled source symbol terminal hv _ =>
      obtain ⟨rfl, hdot⟩ : production = source.production ∧ 1 = source.dot + 1 := by
        simpa [Item.advance] using hi
      have hzero : (⟨source.production, 0⟩ : Item) = source := by
        cases source
        simp_all
      exact ⟨spelled, hzero ▸ hv⟩
  | begun _ hb _ =>
      obtain ⟨-, -, -, hzero⟩ := hb
      subst hi
      cases hzero
  | passed _ hb _ =>
      obtain ⟨-, -, -, hzero⟩ := hb
      subst hi
      cases hzero

-- What a nonterminal sees in a prefix is seen by all from which it can be
-- reduced to with nothing else.
theorem valid_of_lifts {rules : Rules} {nonterminal : Nat}
    (hv : ∀ production, (rules.production production).left = some nonterminal →
      Valid rules spelled ⟨production, 0⟩ terminal)
    (hl : Relation.ReflTransGen (Lifts rules) symbol nonterminal) :
    ∀ production, (rules.production production).left = some symbol →
      Valid rules spelled ⟨production, 0⟩ terminal := by
  induction hl using Relation.ReflTransGen.head_induction_on with
  | refl => exact hv
  | head h _ ih =>
      obtain ⟨production, rest, hleft, hright, hvanishes⟩ := h
      intro other ho
      have hnext : (⟨production, 0⟩ : Item).next? rules = some _ :=
        Item.next?_of_drop (by rw [List.drop_zero, hright])
      have hremaining : (⟨production, 0⟩ : Item).remaining rules = rest := by
        simp [Item.remaining, hright]
      exact .passed (ih production hleft) ⟨_, hnext, ho, rfl⟩ (hremaining ▸ hvanishes)

-- The item of a cycle that moves over a symbol comes to its end behind it.
theorem ends_of_lifts (hc : ConflictFree grammar graph) (hm : graph.mode ≠ .lr0) {above : Nat}
    (hall : ∀ production, (grammar.production production).left = some symbol →
      Valid grammar.toRules spelled ⟨production, 0⟩ terminal)
    (hlift : Lifts grammar.toRules symbol above)
    (hchain : Relation.ReflTransGen (Lifts grammar.toRules) above symbol) :
    ∃ below target production, Path graph spelled below ∧
      (symbol, target) ∈ graph.edgesFrom (Slot.top below) ∧
      (grammar.production production).left = some above ∧
      Ends grammar graph target ⟨production, 1⟩ terminal := by
  obtain ⟨production, rest, hleft, hright, hvanishes⟩ := hlift
  have hv := valid_of_lifts hall hchain production hleft
  obtain ⟨below, hp⟩ := Path.exists_of_spells hc.faithful hv.spells
  have hi := hp.hasItem hc.faithful hv.spells
  have hnext : (⟨production, 0⟩ : Item).next? grammar.toRules = some symbol :=
    Item.next?_of_drop (by rw [List.drop_zero, hright])
  obtain ⟨target, he⟩ := hc.faithful.edge_exists _ _ _ hi hnext
  refine ⟨below, target, production, hp, he, hleft, ?_, ?_, ?_, Nat.one_pos, fun hstart => ?_⟩
  · exact hc.deterministic.admits_advance ⟨hi, Or.inr ⟨hm, hp.sees hc.faithful hm hv⟩⟩ he hnext
  · simpa [hright] using hvanishes
  · simp [hright]
  · rw [show production = startProduction from hstart, hc.wellFormed.start_left] at hleft
    cases hleft

-- No nonterminal can be reduced to itself with nothing else, where a terminal may
-- follow it. What brings it in would compete with the reduction.
theorem not_cyclic (hc : ConflictFree grammar graph) (hm : graph.mode ≠ .lr0)
    (hv : Valid grammar.toRules spelled item terminal) (hdot : item.dot = 0)
    (hleft : (grammar.production item.production).left = some symbol)
    (hcycle : Relation.TransGen (Lifts grammar.toRules) symbol symbol) : False := by
  have hleaf : ∀ terminal, (⟨some terminal, false, default⟩ : Leaf).symbol = some terminal := fun _ => rfl
  induction hv generalizing symbol with
  | start =>
      rw [show (Item.start.production) = startProduction from rfl, hc.wellFormed.start_left] at hleft
      cases hleft
  | advanced _ _ _ => cases hdot
  | @begun spelled source other terminal hs hb hbegins =>
      obtain ⟨next, hnext, hleft', -⟩ := hb
      obtain rfl : next = symbol := Option.some_inj.mp (hleft'.symm.trans hleft)
      obtain ⟨above, hlift, hchain⟩ := Relation.TransGen.head'_iff.mp hcycle
      obtain ⟨below, target, production, hp, he, -, hends⟩ :=
        ends_of_lifts hc hm (fun production h => .begun hs ⟨next, hnext, h, rfl⟩ hbegins) hlift hchain
      have hi : (graph.state target).HasItem source.advance :=
        (hc.faithful.edge_items _ _ _ he _).mpr (.given ⟨source, hp.hasItem hc.faithful hs, hnext, rfl⟩)
      exact hc.not_ends_of_begins (hleaf terminal) hends hi hbegins
  | @passed spelled source other terminal hv hb hvanishes ih =>
      obtain ⟨next, hnext, hleft', -⟩ := hb
      obtain rfl : next = symbol := Option.some_inj.mp (hleft'.symm.trans hleft)
      obtain ⟨above, hlift, hchain⟩ := Relation.TransGen.head'_iff.mp hcycle
      obtain ⟨below, target, production, hp, he, habove, hends⟩ :=
        ends_of_lifts hc hm (fun production h => .passed hv ⟨next, hnext, h, rfl⟩ hvanishes) hlift hchain
      have hadmits : Admits grammar graph (Slot.top below) source terminal :=
        ⟨hp.hasItem hc.faithful hv.spells, Or.inr ⟨hm, hp.sees hc.faithful hm hv⟩⟩
      have hother : Ends grammar graph target source.advance terminal :=
        ⟨hc.deterministic.admits_advance hadmits he hnext, hvanishes, (List.getElem?_eq_some_iff.mp hnext).1,
          Nat.succ_pos _, fun h => hv.finish hc.wellFormed h⟩
      have hsame := hc.ends_unique (hleaf terminal) hends hother
      obtain ⟨hproduction, hzero⟩ : production = source.production ∧ source.dot = 0 := by
        simpa [Item.advance] using hsame
      exact ih hzero (hproduction ▸ habove) (.tail' hchain hlift)

end Cycles

namespace Machine

variable (table : SyntaxTable) (leaf : Leaf)

-- A reduction before a leaf.
def Reduces (slots after : List Slot) : Prop :=
  ∃ production, action? table slots leaf = some (.reduce production) ∧
    reduce table production slots = some after

-- Whether only so many reductions can be made before a leaf.
def Halts : List Slot → Prop := Acc fun after slots => Reduces table leaf slots after

variable {table leaf} {slots after stack : List Slot}

theorem halts_of_forall (h : ∀ after, Reduces table leaf slots after → Halts table leaf after) :
    Halts table leaf slots := Acc.intro slots h

theorem halts_of_not_reduce
    (h : ∀ production, action? table slots leaf ≠ some (.reduce production)) :
    Halts table leaf slots :=
  halts_of_forall fun _ ⟨production, haction, _⟩ => absurd haction (h production)

theorem Climbs.halts (hc : Climbs table stack leaf slots after)
    (h : Halts table leaf (after ++ stack)) : Halts table leaf (slots ++ stack) := by
  induction hc using Relation.ReflTransGen.head_induction_on with
  | refl => exact h
  | head hclimb _ ih =>
      obtain ⟨production, haction, hreduce⟩ := reduce_of_climb hclimb
      refine halts_of_forall fun other ⟨production', haction', hreduce'⟩ => ?_
      rw [haction, Option.some_inj] at haction'
      rw [← Action.reduce.inj haction', hreduce, Option.some_inj] at hreduce'
      exact hreduce' ▸ ih

end Machine

section Halting

variable {grammar : Grammar} {graph : StateGraph} {terminal : Nat} {leaf : Leaf} {item : Item}
  {spelled : List Nat} {slots : List Slot}

theorem Stems.sees (hf : Faithful grammar graph) (hm : graph.mode ≠ .lr0) {state : Nat}
    (hs : Stems grammar.toRules (graph.state state) item terminal) :
    (graph.state state).Sees item terminal := by
  induction hs with
  | kernel h _ => exact h
  | begun hi hb hbegins => exact hf.begun_sees hm _ _ _ _ hi hb hbegins
  | passed _ hb hv ih => exact hf.passed_sees hm _ _ _ _ ih hb hv

theorem halts_of_edge (hc : ConflictFree grammar graph) (hs : leaf.symbol = some terminal)
    (ht : terminal ∈ grammar.terminals) {target : Nat}
    (he : (terminal, target) ∈ graph.edgesFrom (Slot.top slots)) :
    Machine.Halts (.build graph grammar) leaf slots := by
  refine Machine.halts_of_not_reduce fun production h => ?_
  rw [Machine.action?, hs, Option.bind_some, hc.deterministic.shift he ht (Or.inl hc.finish)] at h
  cases h

-- Where an item that vanishes may be reduced before a leaf, either the leaf is
-- shifted in the end, or an item below whose dot has moved comes to its end.
theorem halts_or_ends (hc : ConflictFree grammar graph) (hm : graph.mode ≠ .lr0)
    (hs : leaf.symbol = some terminal)
    (hstems : Stems grammar.toRules (graph.state (Slot.top slots)) item terminal)
    (hdot : item.dot = 0) (hv : Vanishes grammar.toRules (grammar.production item.production).right) :
    Machine.Halts (.build graph grammar) leaf slots ∨
      ∃ item, Ends grammar graph (Slot.top slots) item terminal := by
  -- an item before a nonterminal that vanishes, and the sequence behind its dot
  have hbrought : ∀ {source item : Item}, source.Brings grammar.toRules item →
      Vanishes grammar.toRules (grammar.production item.production).right →
      ∃ next, (grammar.production source.production).right.drop source.dot =
          next :: source.remaining grammar.toRules ∧ Vanishes grammar.toRules [next] ∧
        source.next? grammar.toRules = some next := by
    rintro source item ⟨next, hnext, hleft, -⟩ hv
    exact ⟨next, Item.next?_eq_some hnext, .cons hleft hv .nil, hnext⟩
  induction hstems with
  | @kernel item terminal hsees hmoved =>
      obtain rfl := hmoved.resolve_left (by omega)
      obtain ⟨spelled, hvalid⟩ := hc.faithful.justified _ _ _ hsees
      have hfinish := hvalid.finish hc.wellFormed rfl
      have hright : (grammar.production Item.start.production).right.drop Item.start.dot =
          (grammar.production Item.start.production).right ++ [] := by simp [Item.start]
      have hadmits : Admits grammar graph (Slot.top slots) .start terminal :=
        ⟨hsees.hasItem, Or.inr ⟨hm, hsees⟩⟩
      obtain ⟨others, hpiled, hclimbs⟩ := @ConflictFree.climbs_vanishes grammar graph slots [] .start _ []
        leaf terminal hc hv hs hsees.hasItem hright (Or.inr ⟨.nil, hadmits⟩)
      refine Or.inl (hclimbs.halts (Machine.halts_of_not_reduce fun production h => ?_))
      have hi := hc.deterministic.hasItem_piled hpiled hright hsees.hasItem
      rw [List.nil_append] at hi
      rw [List.append_nil, Machine.action?, hs, Option.bind_some, hfinish,
        hc.action? (.accept hi (by simp [Item.isFinal, Item.start]) rfl)] at h
      cases h
  | @begun source item terminal hi hb hbegins =>
      obtain ⟨next, hdrop, hvanishes, -⟩ := hbrought hb hv
      obtain ⟨after, target, hclimbs, he⟩ := @ConflictFree.climbs_begins grammar graph slots [] source _ []
        leaf terminal hc (.after hvanishes hbegins) hs hi (by rw [hdrop, List.append_nil])
      exact Or.inl (hclimbs.halts (halts_of_edge hc hs hbegins.mem_terminals he))
  | @passed source item terminal hstems hb hvanishes ih =>
      obtain ⟨next, hdrop, hnext, hnext'⟩ := hbrought hb hv
      have hall : Vanishes grammar.toRules
          ((grammar.production source.production).right.drop source.dot) := by
        rw [hdrop]
        exact vanishes_cons.mpr ⟨hnext, hvanishes⟩
      have hsees := hstems.sees hc.faithful hm
      rcases Nat.eq_zero_or_pos source.dot with hzero | hpos
      · exact ih hs hzero (by rwa [hzero, List.drop_zero] at hall)
      · obtain ⟨spelled, hvalid⟩ := hc.faithful.justified _ _ _ hsees
        exact Or.inr ⟨source, ⟨hsees.hasItem, Or.inr ⟨hm, hsees⟩⟩, hall,
          Nat.le_of_lt (List.getElem?_eq_some_iff.mp hnext').1, hpos, hvalid.finish hc.wellFormed⟩

theorem halts_or_ends_of_path (hc : ConflictFree grammar graph) (hm : graph.mode ≠ .lr0)
    (hs : leaf.symbol = some terminal) (hp : Path graph spelled slots) :
    Machine.Halts (.build graph grammar) leaf slots ∨
      ∃ item, Ends grammar graph (Slot.top slots) item terminal := by
  by_cases hreduce : ∃ production, Machine.action? (.build graph grammar) slots leaf =
      some (.reduce production)
  · obtain ⟨production, haction⟩ := hreduce
    rw [Machine.action?, hs, Option.bind_some] at haction
    generalize hreduce : Action.reduce production = action at haction
    cases candidate_of_action? haction with
    | accept => cases hreduce
    | shift => cases hreduce
    | goto => cases hreduce
    | @reduce item terminal ha hfinal hstart =>
        have hle : (grammar.production item.production).right.length ≤ item.dot := by
          simpa [Item.isFinal] using hfinal
        have hnil : (grammar.production item.production).right.drop item.dot = [] :=
          List.drop_eq_nil_of_le hle
        rcases Nat.eq_zero_or_pos item.dot with hzero | hpos
        · rw [hzero, List.drop_zero] at hnil
          have hsees := (ha.2.resolve_left fun h => hm h.1).2
          exact halts_or_ends hc hm hs (hc.faithful.stems _ _ _ hsees) hzero (hnil ▸ .nil)
        · exact Or.inr ⟨item, ha, hnil ▸ .nil, hp.dot_le hc.faithful ha.1, hpos,
            fun h => absurd h hstart⟩
  · exact Or.inl (Machine.halts_of_not_reduce fun production h => hreduce ⟨production, h⟩)

-- An item that comes to its end is reduced, with what it has moved over.
theorem halts_of_ends (hc : ConflictFree grammar graph) (hs : leaf.symbol = some terminal)
    (hp : Path graph spelled slots) (he : Ends grammar graph (Slot.top slots) item terminal)
    (hhalts : ∀ left rest others, (grammar.production item.production).left = some left →
      spelled = ((grammar.production item.production).right.take item.dot).reverse ++ rest →
      Path graph (left :: rest) others → Machine.Halts (.build graph grammar) leaf others) :
    Machine.Halts (.build graph grammar) leaf slots := by
  obtain ⟨inner, hpiled, hclimbs, haction, -⟩ := hc.climbs_ends hs he
  refine hclimbs.halts (Machine.halts_of_forall fun others hsome => ?_)
  obtain ⟨production, hreduce, hothers⟩ := hsome
  rw [haction, Option.some_inj, finalAction] at hreduce
  split at hreduce
  · cases hreduce
  · obtain rfl := Action.reduce.inj hreduce
    have hlength : (grammar.production item.production).right.length =
        ((grammar.production item.production).right.drop item.dot).length + item.dot := by
      rw [List.length_drop, Nat.sub_add_cancel he.dot_le]
    obtain ⟨children, below, rest, hpop, hbelow, -, hspelled⟩ :=
      hp.pop hc.faithful he.admits.1 ((inner.map Slot.copy).reverse ++ [])
    obtain ⟨_, _, left, target, hpop', hleft, hgoto, rfl⟩ := Machine.reduce_eq_some hothers
    have hpopped : Slot.pop [] (grammar.production item.production).right.length (inner ++ slots) =
        some (children, below) := by
      rw [hlength, hpiled.pop_add, hpop]
    obtain ⟨rfl, rfl⟩ := Prod.mk.inj (Option.some_inj.mp (hpopped.symm.trans hpop'))
    exact hhalts left rest _ hleft hspelled (.symbol hbelow (edge_of_goto? hgoto))

-- What a symbol can be reduced to with nothing else, where a terminal may follow.
def LiftsBefore (rules : Rules) (terminal nonterminal symbol : Nat) : Prop :=
  Relation.TransGen (Lifts rules) symbol nonterminal ∧
    ∃ spelled production, (rules.production production).left = some nonterminal ∧
      Valid rules spelled ⟨production, 0⟩ terminal

theorem wellFounded_liftsBefore (hc : ConflictFree grammar graph) (hm : graph.mode ≠ .lr0)
    (terminal : Nat) :
    WellFounded fun nonterminal symbol : Fin grammar.symbols.size =>
      LiftsBefore grammar.toRules terminal nonterminal symbol := by
  have htrans : IsTrans (Fin grammar.symbols.size) fun nonterminal symbol =>
      LiftsBefore grammar.toRules terminal nonterminal symbol :=
    ⟨fun _ _ _ hfirst hsecond => ⟨hsecond.1.trans hfirst.1, hfirst.2⟩⟩
  have hirrefl : Std.Irrefl fun nonterminal symbol : Fin grammar.symbols.size =>
      LiftsBefore grammar.toRules terminal nonterminal symbol := by
    refine ⟨fun nonterminal ⟨hcycle, spelled, production, hleft, hv⟩ => ?_⟩
    exact not_cyclic hc hm hv rfl hleft hcycle
  exact Finite.wellFounded_of_trans_of_irrefl _

-- Before a leaf that the grammar knows only so many reductions can be made on a
-- stack along the edges of the graph: each leaves fewer symbols, or lifts the top.
theorem ConflictFree.halts (hc : ConflictFree grammar graph) (hm : graph.mode ≠ .lr0)
    (hs : leaf.symbol = some terminal) (hp : Path graph spelled slots) :
    Machine.Halts (.build graph grammar) leaf slots := by
  induction hn : spelled.length using Nat.strong_induction_on generalizing spelled slots with
  | _ length ih =>
      subst hn
      -- the symbols below the top stay the same while the top is lifted
      have hlift : ∀ (top : Fin grammar.symbols.size) (rest : List Nat) (slots : List Slot),
          rest.length + 1 = spelled.length → Path graph (top :: rest) slots →
          Machine.Halts (.build graph grammar) leaf slots := by
        intro top
        induction top using (wellFounded_liftsBefore hc hm terminal).induction with
        | _ top ihtop =>
            intro rest slots hlength hp
            rcases halts_or_ends_of_path hc hm hs hp with hhalts | ⟨item, he⟩
            · exact hhalts
            refine halts_of_ends hc hs hp he fun left below others hleft hspelled ho => ?_
            have htaken := congrArg List.length hspelled
            rw [List.length_append, List.length_reverse, List.length_take,
              Nat.min_eq_left he.dot_le, List.length_cons, hlength] at htaken
            have hmoved := he.moved
            by_cases hone : item.dot = 1
            · obtain ⟨behind, hbehind⟩ :=
                hc.faithful.justified _ _ _ (he.admits.2.resolve_left fun h => hm h.1).2
              have hadvanced : Valid grammar.toRules behind ⟨item.production, 1⟩ terminal := by
                rw [← hone]
                exact hbehind
              obtain ⟨spelled, hv⟩ := hadvanced.unadvance
              have hlift : Lifts grammar.toRules top left := by
                have hvanishes := he.vanishes
                rw [hone] at hspelled hvanishes
                refine ⟨item.production, _, hleft, ?_, hvanishes⟩
                cases hright : (grammar.production item.production).right with
                | nil =>
                    have hdot := he.dot_le
                    rw [hright, hone] at hdot
                    cases hdot
                | cons symbol behind =>
                    rw [hright] at hspelled
                    simp only [List.take_succ_cons, List.take_zero, List.reverse_singleton,
                      List.singleton_append, List.cons.injEq] at hspelled
                    simp [hspelled.1]
              exact ihtop ⟨left, (hc.wellFormed.left_spec hleft).1⟩
                ⟨.single hlift, spelled, item.production, hleft, hv⟩ below others (by omega) ho
            · exact ih (below.length + 1) (by omega) ho rfl
      cases hp' : spelled with
      | nil =>
          subst hp'
          rcases halts_or_ends_of_path hc hm hs hp with hhalts | ⟨item, he⟩
          · exact hhalts
          · exfalso
            have hdot := hc.faithful.dot_of_start (hp.top_nil ▸ he.admits.1)
            have hmoved := he.moved
            omega
      | cons top rest =>
          subst hp'
          obtain ⟨below, -, hedge⟩ := hp.uncons
          obtain ⟨item, -, hnext⟩ := hc.faithful.edge_next _ _ _ hedge
          have hlt := (hc.wellFormed.right _ _ (Item.next?_mem hnext)).1
          exact hlift ⟨top, hlt⟩ rest slots rfl hp

end Halting

end IncrementalLR
