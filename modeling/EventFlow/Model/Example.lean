import EventFlow.Model.Basic

/-!
An example: items of an inventory.

It has one flow for each kind of slice. Items are created by a command, with a stream, a client, an
error and a sink; they are browsed by a query of a projection; and depleted stock is reordered by a
reaction that sends a command to an integration.
-/

namespace EventFlow.Model

namespace Items

/-! ## Messages -/

/-- A required field without a description. -/
def field (name type : String) : Field := { name := name, type := type, required := true }

def createItem : Message :=
  { name := "CreateItem"
    kind := .command
    version := 1
    description := some "Registers a new item in the catalogue"
    fields :=
      [field "itemId" "string",
        { field "label" "string" with description := some "Display name" },
        { field "quantity" "number" with required := false, default := .int 0 }] }

def itemCreated : Message :=
  { name := "ItemCreated"
    kind := .event
    version := 2
    fields := [field "itemId" "string", field "label" "string", field "createdAt" "Date"] }

def stockDepleted : Message :=
  { name := "StockDepleted"
    kind := .event
    version := 1
    fields := [field "itemId" "string"] }

def reorderItem : Message :=
  { name := "ReorderItem"
    kind := .command
    version := 1
    fields := [field "itemId" "string", field "amount" "number"] }

def availableItems : Message :=
  { name := "AvailableItems"
    kind := .state
    version := 1
    description := some "Items that can be browsed"
    fields := [field "items" "Array<{ itemId: string; label: string }>"] }

/-! ## Examples -/

def lamp : Json.Members := [("itemId", .text "item-1"), ("label", .text "Lamp")]

def lampCreated : Example :=
  ⟨"ItemCreated", .object (lamp ++ [("createdAt", .text "2024-01-15T10:00:00.000Z")])⟩

def createLamp : Example := ⟨"CreateItem", .object lamp⟩

def lampAvailable : Example := ⟨"AvailableItems", .object [("items", .array [.object lamp])]⟩

def lampDepleted : Example := ⟨"StockDepleted", .object [("itemId", .text "item-1")]⟩

def reorderLamp : Example :=
  ⟨"ReorderItem", .object [("itemId", .text "item-1"), ("amount", .int 10)]⟩

/-! ## Slices -/

def creation : Slice :=
  { kind := .command
    name := "Create item"
    id := some "create-item"
    stream := some "item-${itemId}"
    client := some
      { description := "Item form"
        specs := ["require a label", "show the new item in the list"] }
    server :=
      { description := "Validates and stores new items"
        data := [.sink ⟨.event, "ItemCreated"⟩ (.stream "item-${itemId}") none none]
        specs :=
          [{ when := .one createLamp, outcomes := [.message lampCreated] },
            { given := [lampCreated]
              when := .one createLamp
              outcomes := [.error .illegalState (some "Item already exists")] }] } }

def browsing : Slice :=
  { kind := .query
    name := "Browse items"
    request := some
      r"query AvailableItems {
  items {
    itemId
    label
  }
}"
    server :=
      { description := ""
        data :=
          [.source ⟨.state, "AvailableItems"⟩ (.projection "AvailableItemsProjection" "itemId")
            none]
        specs := [{ given := [lampCreated], outcomes := [.message lampAvailable] }] } }

def reordering : Slice :=
  { kind := .react
    name := "Reorder depleted stock"
    server :=
      { description := ""
        data :=
          [.sink ⟨.command, "ReorderItem"⟩
            (.integration ["Supplier"] (some ⟨"PlaceOrder", "command"⟩))
            (some (.source ⟨.state, "StockLevels"⟩ (.integration ["Inventory"]) none))
            (some "Order at most 100 units")]
        specs := [{ when := .many [lampDepleted], outcomes := [.message reorderLamp] }] } }

end Items

/-- The flows, messages and integrations of an inventory. -/
def items : Model :=
  { flows :=
      [{ name := "Manage items"
         id := some "manage-items"
         description := some "Catalogue maintenance"
         slices := [Items.creation] },
        { name := "Browse items", slices := [Items.browsing] },
        { name := "Restock", slices := [Items.reordering] }]
    messages :=
      [Items.createItem, Items.itemCreated, Items.stockDepleted, Items.reorderItem,
        Items.availableItems]
    integrations :=
      [⟨"Supplier", "@examples/supplier", some "Purchase orders"⟩,
        ⟨"Inventory", "@examples/inventory", none⟩] }

end EventFlow.Model
