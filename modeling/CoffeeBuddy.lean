import CoffeeBuddy.Properties.Producer
import CoffeeBuddy.Properties.Acknowledgement
import CoffeeBuddy.Properties.Administration
import CoffeeBuddy.Properties.Audit
import CoffeeBuddy.Properties.Closing
import CoffeeBuddy.Properties.CommandText
import CoffeeBuddy.Properties.Configuration
import CoffeeBuddy.Properties.CreditBounds
import CoffeeBuddy.Properties.CreditRace
import CoffeeBuddy.Properties.Delivery
import CoffeeBuddy.Properties.Disabled
import CoffeeBuddy.Properties.Endpoint
import CoffeeBuddy.Properties.Failure
import CoffeeBuddy.Properties.FinalOrders
import CoffeeBuddy.Properties.Frozen
import CoffeeBuddy.Properties.Integrity
import CoffeeBuddy.Properties.Isolation
import CoffeeBuddy.Properties.Keys
import CoffeeBuddy.Properties.OrderMap
import CoffeeBuddy.Properties.OrderRace
import CoffeeBuddy.Properties.Pipeline
import CoffeeBuddy.Properties.Preferences
import CoffeeBuddy.Properties.Publication
import CoffeeBuddy.Properties.Purge
import CoffeeBuddy.Properties.Redelivery
import CoffeeBuddy.Properties.Reset
import CoffeeBuddy.Properties.Restart
import CoffeeBuddy.Properties.RunEvents
import CoffeeBuddy.Properties.Signature
import CoffeeBuddy.Properties.Serializable
import CoffeeBuddy.Properties.SlashRuns
import CoffeeBuddy.Properties.Spelling
import CoffeeBuddy.Properties.Upkeep
import CoffeeBuddy.Properties.Window
