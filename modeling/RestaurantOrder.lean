import RestaurantOrder.Wire.Split
import RestaurantOrder.Wire.Outcomes
import RestaurantOrder.Wire.Agreement
import RestaurantOrder.Wire.Canonical
import RestaurantOrder.Model.Assignment
import RestaurantOrder.Server.Size
import RestaurantOrder.Server.Completion
import RestaurantOrder.Server.Lifecycle
import RestaurantOrder.Server.Updates
import RestaurantOrder.Server.Commute
import RestaurantOrder.Display.Stored
import RestaurantOrder.Session.Failures
import RestaurantOrder.Session.System
import RestaurantOrder.Threads.Locks
import RestaurantOrder.Threads.Atomicity
import RestaurantOrder.Programs.Reports
import RestaurantOrder.Programs.Progress
import RestaurantOrder.Programs.Rest
import RestaurantOrder.Programs.Explained
import RestaurantOrder.Display.Story
